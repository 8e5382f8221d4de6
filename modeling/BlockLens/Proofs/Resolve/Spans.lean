import BlockLens.Proofs.Composite.Lookup
import BlockLens.Proofs.Resolve.Lead
import BlockLens.Proofs.Template.Regions
import BlockLens.Proofs.Workspace.Offsets

set_option autoImplicit false

namespace BlockLens

open Text

def Output.Holds (out : Output) (e : Extent) : Prop :=
  match out.mapping with
  | .identity => e.stop ≤ bytes out.code
  | .segments m => ∃ s ∈ m.segments, s.generated.start ≤ e.start ∧ e.stop ≤ s.generated.stop
  | .unmapped => False

namespace View

/-- Both ends of the extent go to a stretch of the same length with the same bytes, and it begins in
no zone. -/
structure Moves (v : View) (out : Output) (e : Extent) (start : Nat) : Prop where
  first : v.absoluteAt? e.start = some start
  last : v.absoluteAt? e.stop = some (start + e.length)
  free : ∀ k, v.inZone k e.start = false
  same : ∀ text : String, Markup.Lies 0 text.toList v.block → ∀ i < e.length,
    ∃ y, byte? text (start + i) = some y ∧ byte? out.code (e.start + i) = some y

variable {v : View} {out : Output} {e : Extent}

theorem Moves.compositeExtent {start : Nat} (h : v.Moves out e start) :
    Resolve.compositeExtent v e = ⟨start, e.length⟩ := by
  simp [Resolve.compositeExtent, h.first, h.last]

theorem moves_identity (hv : v.output? = some out) (hf : v.block.isFallback = false)
    (hm : out.mapping = .identity) (hc : out.code = v.block.content) (hz : out.zones = [])
    (he : e.stop ≤ bytes out.code) : v.Moves out e (v.block.span.start + e.start) := by
  have hstop : e.stop = e.start + e.length := rfl
  have habs : ∀ g ≤ bytes out.code, v.absoluteAt? g = some (v.block.span.start + g) := by
    intro g hg
    simp [absoluteAt?, hf, hv, hm, ← hc, hg]
  refine ⟨habs _ (by omega), ?_, fun k => ?_, fun text ht i hi => ?_⟩
  · rw [habs _ he, hstop, Nat.add_assoc]
  · simp [inZone, zones, hv, hz]
  · have hlen : bytes out.code = width v.block.content.toList := by rw [hc, bytes]
    obtain ⟨y, hy, hy'⟩ := ht.byte? (x := v.block.span.start + e.start + i) (by omega) (by
      obtain ⟨-, -, -, -, hspan⟩ := ht
      omega)
    refine ⟨y, hy, ?_⟩
    rw [hc, ← hy']
    congr 1
    omega

theorem moves_segments {scriptImport : Option String} (hv : v.output? = some out)
    (hf : v.block.isFallback = false)
    (ho : out = Template.render (Template.expressions v.block.content) scriptImport)
    {m : SourceMap} (hm : Template.Maps v.block.content out m) {s : Segment} (hs : s ∈ m.segments)
    (hl : s.generated.start ≤ e.start) (hr : e.stop ≤ s.generated.stop) :
    v.Moves out e (v.block.span.start + (s.source.start + (e.start - s.generated.start))) := by
  have hstop : e.stop = e.start + e.length := rfl
  obtain ⟨g, hfol⟩ := hm.follows
  have hlen := (hfol.of_mem hs).2.length
  have habs : ∀ i, s.generated.start ≤ i → i ≤ s.generated.stop →
      v.absoluteAt? i = some (v.block.span.start + (s.source.start + (i - s.generated.start))) := by
    intro i hi hi'
    have hat : m.sourceAt? i = _ := hfol.sourceAt?_of_reaches hs hi hi'
    simp [absoluteAt?, hf, hv, hm.mapping, hat]
  refine ⟨habs _ hl (by omega), ?_, fun k => ?_, fun text ht i hi => ?_⟩
  · rw [habs _ (by omega) hr, Option.some.injEq]
    omega
  · have hfree : ∀ z ∈ out.zones, z.span.contains e.start = false := by
      intro z hz
      have hmap := hm.mapping
      rw [ho] at hz hmap
      exact Template.contains_zone_of_mem_segments hmap hs hl (by omega) hz
    simp only [inZone, zones, hv, List.any_eq_false, Bool.and_eq_true, not_and, Bool.not_eq_true]
    exact fun z hz _ => hfree z hz
  · have hcopies := hm.copies s hs
    have hin := hcopies.stop_le.1
    obtain ⟨y, hy, hy'⟩ := ht.byte?
      (x := v.block.span.start + (s.source.start + (e.start - s.generated.start)) + i) (by omega) (by
        obtain ⟨-, -, -, -, hspan⟩ := ht
        omega)
    refine ⟨y, hy, ?_⟩
    have hbyte := hcopies.byte_eq (o := s.source.start + (e.start - s.generated.start) + i)
      (g := e.start + i) (by omega) (by omega) (by omega)
    rw [String.ofList_toList, String.ofList_toList] at hbyte
    rw [hbyte, ← hy']
    congr 1
    omega

theorem generated_of_output? (h : v.output? = some out) : v.generated = .ok (some out) := by
  unfold output? at h
  cases hg : v.generated with
  | error e => simp [hg, Except.toOption] at h
  | ok r =>
    rw [hg, Except.toOption, Option.join_some] at h
    rw [h]

theorem builtin_output {d : BlockDocument} {b : Block} (hk : b.kind.IsTag)
    (ht : d.transformer = Registry.builtin.get? b.kind) (hg : d.generate b = .ok (some out)) :
    b.kind = .script ∧ out.mapping = .identity ∧ out.code = b.content ∧ out.zones = [] ∨
      b.kind = .template ∧
        out = Template.render (Template.expressions b.content) d.scriptImport := by
  simp only [BlockDocument.generate] at hg
  cases hb : b.kind with
  | script =>
    have htr : d.transformer = some Script.transformer := by rw [ht, hb]; rfl
    simp only [htr, Script.transformer, Script.run] at hg
    split at hg
    · simp [Except.map] at hg
    · simp only [Except.map, Except.ok.injEq, Option.some.injEq] at hg
      subst hg
      exact .inl ⟨rfl, rfl, rfl, rfl⟩
  | template =>
    have htr : d.transformer = some Template.transformer := by rw [ht, hb]; rfl
    simp only [htr, Template.transformer, Template.run] at hg
    split at hg
    · simp only [Except.map, Except.ok.injEq, Option.some.injEq] at hg
      exact .inr ⟨rfl, hg.symm⟩
    · simp [Except.map] at hg
  | style =>
    have htr : d.transformer = none := by rw [ht, hb]; rfl
    simp [htr] at hg
  | custom name =>
    obtain ⟨hn₁, hn₂, -⟩ := Kind.isTag_iff.1 hk name hb
    have htr : d.transformer = none := by
      rw [ht, hb, Registry.builtin, Registry.get?_register, Registry.get?_register]
      simp only [Kind.tag, hn₁, hn₂, if_false]
      rfl
    simp [htr] at hg

theorem moves_ofBlock {d : BlockDocument} {b : Block} (hk : b.kind.IsTag)
    (ht : d.transformer = Registry.builtin.get? b.kind) (hf : b.isFallback = false)
    (hg : d.generate b = .ok (some out)) (he : out.Holds e) :
    ∃ start, (ofBlock d b).Moves out e start := by
  have hout : (ofBlock d b).output? = some out := by simp [ofBlock, output?, hg, Except.toOption]
  rcases builtin_output hk ht hg with ⟨-, hm, hc, hz⟩ | ⟨-, ho⟩
  · simp only [Output.Holds, hm] at he
    exact ⟨_, moves_identity hout hf hm hc hz he⟩
  · obtain ⟨m, hm⟩ := Template.maps_render b.content d.scriptImport
    rw [← ho] at hm
    simp only [Output.Holds, hm.mapping] at he
    obtain ⟨s, hs, hl, hr⟩ := he
    exact ⟨_, moves_segments hout hf ho hm hs hl hr⟩

end View

namespace Workspace

variable {w : Workspace} {L : Nat → Ledger} {file : String} {n : Nat} {d : Document}
  {b : BlockDocument}

/-- The name of a live document leads to it, and it shows what it would now generate. -/
theorem Sound.blockView (h : w.Sound L) (hn : w.get? file = some n) (hd : w.document? n = some d)
    (hb : b ∈ (d.refresh w.options).composite.live) (hk : FileKind.classify b.key = .block b.id)
    (queries : List Query) :
    b.id.file = file ∧ ∃ w', (Resolve.blockView b.key).run ⟨w, queries⟩ =
      (some (.ofBlock b (b.current (some (d.refresh w.options).composite.outline)).block),
        ⟨w', queries⟩) := by
  have hc := (h.document_consistent hd).refresh d.source.text
  obtain ⟨d', hd', hfile, halive⟩ := h.file_of_get? hn
  obtain rfl : d = d' := Option.some.inj (hd.symm.trans hd')
  obtain ⟨hslot, hid, -, -⟩ := Composite.slot?_of_idIn _ (hc.idIn_of_live hb)
  rw [Composite.file_refresh] at hid
  have hby : d.documentById w.options b.key = (.ok (some b), d.refresh w.options) := by
    obtain ⟨s, hs, hby⟩ := Document.documentById_of_parse (o := w.options) (d := d)
      (FileKind.parse_of_classify hk) hid
    rw [hslot, Option.some.injEq] at hs
    have hlive := hc.document_of_live hb
    rw [hby, ← hs, Document.blockDocument]
    simp only [Document.refresh, hlive]
  have hown : b.id.file = file := hid.trans hfile
  have hfound := Workspace.documentById_eq hn hd hby
  obtain ⟨L', -, hs, hdocs⟩ := h.documentById file b.key
  rw [hfound] at hs hdocs
  have hlook := hs.look_eq (hdocs ⟨n, b⟩ rfl)
  rw [entryOf_eq ((isAlive_put w n n _).trans halive) (document?_put_self hd _)] at hlook
  have hblock : w.blockDocument b.key = (some ⟨n, b⟩, w.put n (d.refresh w.options)) := by
    simp [Workspace.blockDocument, hk, hown, hfound, Except.toOption]
  refine ⟨hown, ((w.put n (d.refresh w.options)).look ⟨n, b⟩).2, ?_⟩
  simp only [Resolve.blockView, Resolve.look, StateT.run_bind, StateT.run_get, pure_bind, hblock,
    StateT.run_modify, StateT.run_pure, hlook]
  rfl

end Workspace

/-- A candidate in a block that begins in no zone stands for itself. -/
theorem Resolve.run_normalize {x : Definition} {id : Identifier} {v : View} {s s' : Resolving}
    (hk : FileKind.classify x.file = .block id) (hv : (blockView x.file).run s = (some v, s'))
    (hfree : ∀ k, v.inZone k x.extent.start = false)
    (follow : Place → Resolve (Option (List Definition))) :
    (normalize follow x).run s = ([x.mapped id.file v], s') := by
  have hin : x.inBlock id.file (some v) = .settled [x.mapped id.file v] := by
    simp [Definition.inBlock, hfree]
  have hlead : (lead x).run s = (x.inBlock id.file (some v), s') := by
    simp only [lead, hk, StateT.run_map, hv]
    rfl
  rw [normalize_eq, StateT.run_bind, hlead, hin]
  rfl

namespace HandedOverlay

/-- A definition in a live block document of a file without errors, at an extent that was handed on
as it is, comes out as one definition in the file. The engine is not asked again, the extent is as
long as before, and the text in it is the same. The text is the one that was parsed last, and so the
present one unless somebody else edited it and the document does not know. -/
theorem normalize_keeps_text (runtime : Option String) (commands : List Command) (file : String)
    (n : Nat) (d : Document) (t : String) (b : BlockDocument) (out : Output) (x : Definition) :
    let o := Composite.builtinOptions runtime
    let w := ((start o).run commands).overlay.workspace
    let c := (d.refresh o).composite
    let v := View.ofBlock b (b.current (some c.outline)).block
    w.get? file = some n → w.document? n = some d → c.parsed = some t → c.errors = [] →
      b ∈ c.live → v.generated = .ok (some out) → v.block.isFallback = false →
      x.file = b.key → out.Holds x.extent →
    (d.Tracks → t = d.source.text) ∧ ∃ start,
      (∀ (follow : Place → Resolve (Option (List Definition))) (queries : List Query), ∃ w',
        (Resolve.normalize follow x).run ⟨w, queries⟩ =
          ([{ x with
              file
              extent := ⟨start, x.extent.length⟩
              context := x.context.map (Resolve.compositeExtent v) }], ⟨w', queries⟩)) ∧
      ∀ i < x.extent.length,
        ∃ y, byte? t (start + i) = some y ∧ byte? out.code (x.extent.start + i) = some y := by
  intro o w c v hn hd ht herr hb hg hf hx he
  obtain ⟨L, ⟨hsound, -⟩, -⟩ := (sound_start o).run commands
  have ho : w.options = o := options_run (start o) commands
  have hc : c.Consistent o := (ho ▸ hsound.document_consistent hd).refresh d.source.text
  -- the block is the one in the slot, and was found in the text
  obtain ⟨_, hanew, hid, -, htr, -⟩ := hc.current b hb
  obtain ⟨e, i, hslot, -, rfl⟩ := (Composite.anew_eq_some o).1 hanew
  have hcur : (b.current (some c.outline)).block = e.block := by simp [BlockDocument.current, hslot]
  have hblock : v.block = e.block := hcur
  have hfound : e.block ∈ (Markup.split t).blocks := by
    rcases hc.mem_split ht herr hslot with hfall | hfound
    · rw [hblock, hfall] at hf
      exact absurd hf (by decide)
    · exact hfound
  have htag : e.block.kind.IsTag := Kind.isTag_of_exists (Markup.kind_of_mem_split hfound)
  have hgen : b.generate e.block = .ok (some out) := hcur ▸ hg
  obtain ⟨start, hmoves⟩ := View.moves_ofBlock htag htr (hblock ▸ hf) hgen he
  have hv : v = .ofBlock b e.block := congrArg (View.ofBlock b) hcur
  -- its name leads back to it
  have hclass : FileKind.classify b.key = .block b.id := by
    obtain ⟨-, -, hkind, hvalid⟩ := Composite.slot?_of_idIn o (hc.idIn_of_live hb)
    have hbk : b.id.kind = e.block.kind := hkind.trans (hc.kinded.kind_eq hslot).symm
    refine FileKind.classify_text hvalid (hbk ▸ htag) fun k hk => ?_
    have hrepeats := (Identifier.validate_eq_ok.1 hvalid).2.2.2.1
    rw [hk, hbk] at hrepeats
    rcases View.builtin_output htag htr hgen with ⟨hs, -⟩ | ⟨hs, -⟩
    · simp [hs, Kind.repeats] at hrepeats
    · simp [hs, Kind.repeats] at hrepeats
  refine ⟨fun htracks => ?_, start, fun follow queries => ?_, ?_⟩
  · have h := Document.tracks_refresh (o := o) htracks (Composite.dirty_refresh _ _)
    exact Option.some.inj (ht.symm.trans h)
  · obtain ⟨hown, w', hview⟩ := hsound.blockView hn hd (ho.symm ▸ hb) hclass queries
    rw [← hx, ho] at hview
    have hfree : ∀ k, v.inZone k x.extent.start = false := by
      rw [hv]
      exact hmoves.free
    have hextent : Resolve.compositeExtent v x.extent = ⟨start, x.extent.length⟩ := by
      rw [hv]
      exact hmoves.compositeExtent
    refine ⟨w', ?_⟩
    rw [Resolve.run_normalize (hx ▸ hclass) hview hfree follow, hown, Definition.mapped, ← hextent]
  · exact hmoves.same t (Markup.lies_of_mem_split hfound)

theorem normalize_keeps_text_template :
    let text := "<template>\x7b\x7ba+b\x7d\x7d</template>"
    let o := Composite.builtinOptions none
    let w := ((start o).run
      [.openText "/src/Foo.vue" text 1, .act 0 (.document .template)]).overlay.workspace
    let x : Definition := { file := "/src/Foo.vue?vue&type=template&lang.tsx", extent := ⟨210, 1⟩ }
    let out := Template.render (Template.expressions "\x7b\x7ba+b\x7d\x7d")
      (some "./Foo.vue?vue&type=script&lang")
    w.get? "/src/Foo.vue" = some 0 ∧ out.Holds x.extent ∧
      ∃ d b, w.document? 0 = some d ∧ b ∈ (d.refresh o).composite.live ∧ b.key = x.file ∧
        ∃ start, (∃ y, byte? text start = some y ∧ byte? out.code 210 = some y) ∧
          ∀ (follow : Place → Resolve (Option (List Definition))) (queries : List Query), ∃ w',
            (Resolve.normalize follow x).run ⟨w, queries⟩ =
              ([{ x with file := "/src/Foo.vue", extent := ⟨start, 1⟩ }], ⟨w', queries⟩) := by
  intro text o w x out
  have hn : w.get? "/src/Foo.vue" = some 0 := by decide +kernel
  have hholds : out.Holds x.extent :=
    ⟨⟨⟨210, 211⟩, ⟨2, 3⟩⟩, by decide +kernel, by decide, by decide⟩
  have hrun : (w.document? 0).any (fun d =>
      let c := (d.refresh o).composite
      c.parsed = some text && c.errors = [] && c.live.any fun b =>
        let v := View.ofBlock b (b.current (some c.outline)).block
        b.key = x.file && v.block.isFallback = false && v.output? = some out) = true := by
    decide +kernel
  simp only [Option.any_eq_true, List.any_eq_true, Bool.and_eq_true, decide_eq_true_eq] at hrun
  obtain ⟨d, hd, ⟨hparsed, herrors⟩, b, hb, ⟨hkey, hreal⟩, hout⟩ := hrun
  have hgen := View.generated_of_output? hout
  obtain ⟨-, start, hnorm, hbytes⟩ := normalize_keeps_text none
    [.openText "/src/Foo.vue" text 1, .act 0 (.document .template)] "/src/Foo.vue" 0 d text b out x
    hn hd hparsed herrors hb hgen hreal hkey.symm hholds
  exact ⟨hn, hholds, d, b, hd, hb, hkey, start, hbytes 0 (by decide), hnorm⟩

end HandedOverlay

end BlockLens
