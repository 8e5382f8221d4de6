import BlockLens.Proofs.Composite.Lookup

set_option autoImplicit false

namespace BlockLens

theorem Composite.document_idem (o : Options) (c : Composite) (s : Slot) :
    (c.document o s).2.document o s = c.document o s := by
  cases hi : idIn o c.file c.outline s with
  | none =>
    have h := document_of_no_id hi
    rw [h, h]
  | some i =>
    cases hf : c.live.find? (·.key = i.text) with
    | some d =>
      have h := document_of_find hi hf
      rw [h, h]
    | none =>
      obtain ⟨b, hb, hd⟩ := document_of_not_find hi hf
      have hb' := key_of_anew o hb hi
      have hkey : ({ b with serial := c.created } : BlockDocument).key = i.text := hb'
      have hf' : (c.live ++ [{ b with serial := c.created }]).find? (·.key = i.text) =
          some { b with serial := c.created } := by
        rw [List.find?_append, hf, Option.none_or, List.find?_cons_of_pos (by simpa using hkey)]
      rw [hd, document_of_find (by exact hi) hf']

theorem Document.blockDocument_idem (o : Options) (d : Document) (s : Slot) :
    (d.blockDocument o s).2.blockDocument o s = d.blockDocument o s := by
  have hagain := Composite.document_idem o (d.refresh o).composite s
  rw [blockDocument, refresh_blockDocument]
  simp only [blockDocument, hagain]

theorem Document.documentById_idem (o : Options) (d : Document) (name : String) :
    (d.documentById o name).2.documentById o name = d.documentById o name := by
  have hfile : (d.documentById o name).2.composite.file = d.composite.file :=
    (keeps_file o d.composite.file).run (.documentById name) rfl
  generalize hp : d.documentById o name = p at hfile ⊢
  unfold documentById at hp
  split at hp
  · next hforeign =>
    subst hp
    simp only [documentById, hforeign, if_true]
  · next hown =>
    split at hp
    · next e he =>
      subst hp
      simp only [documentById, hown, he]
      rfl
    · next i hi =>
      split at hp
      · next s hs =>
        subst hp
        have hown' : ((Identifier.compositeOf? name).any
            (· != (d.blockDocument o s).2.composite.file)) = false := by
          rw [hfile]
          simpa using hown
        simp only [documentById, hown', hi, hs, blockDocument_idem]
        rfl
      · next hs =>
        subst hp
        simp only [documentById, hown, hi, hs]
        rfl

theorem Workspace.documentById_idem (w : Workspace) (file name : String) :
    (w.documentById file name).2.documentById file name = w.documentById file name := by
  cases hn : w.get? file with
  | none =>
    have h : w.documentById file name = (.ok none, w) := by simp only [documentById, hn]
    rw [h, h]
  | some n =>
    cases hd : w.document? n with
    | none =>
      have h : w.documentById file name = (.ok none, w) := by
        simp only [documentById, hn, withDocument, hd]
      rw [h, h]
    | some d =>
      have hput := document?_put_self hd (d.documentById w.options name).2
      simp only [documentById, hn, withDocument, hd, get?_put, hput, options_put,
        Document.documentById_idem, put_self hput]

namespace Overlay

variable {ov : Overlay} {L : Nat → Ledger}

theorem isSome_generated (b : BlockDocument) (x : Block) (version : Int) :
    (Render.generated (b.generate x) version).isSome = b.transformer.isSome := by
  unfold BlockDocument.generate
  cases b.transformer with
  | none => rfl
  | some t =>
    cases h : t.run x ⟨b.id.file, b.slot, b.scriptImport⟩ <;> simp [h, Except.map, Render.generated]

theorem documentById_ne_error {w : Workspace} (h : w.Sound L) {name : String} {i : Identifier}
    (hk : FileKind.classify name = .block i) (e : DocumentError) :
    (w.documentById i.file name).1 ≠ .error e := by
  unfold Workspace.documentById
  split
  · simp
  · next n hn =>
    obtain ⟨d, hd, hfile, -⟩ := h.file_of_get? hn
    obtain ⟨s, -, hby⟩ := Document.documentById_of_parse (o := w.options)
      (FileKind.parse_of_classify hk) hfile.symm
    simp [Workspace.withDocument, hd, hby]

theorem isSome_readBlock {w : Workspace} (h : w.Sound L) {name : String} {i : Identifier}
    (hk : FileKind.classify name = .block i) :
    (readBlock i.file name w).1.isSome =
      match (w.documentById i.file name).1 with
      | .ok (some x) => x.doc.transformer.isSome
      | _ => false := by
  obtain ⟨L', -, hs, hdocs⟩ := h.documentById i.file name
  have hne := documentById_ne_error h hk
  unfold readBlock
  split
  · next x w' hx =>
    rw [hx] at hs hdocs
    simp only [hx, hs.look_eq (hdocs x rfl), View.ofBlock, isSome_generated]
  · next w' hx => simp only [hx, Option.isSome_none]
  · next e w' hx => exact absurd (by rw [hx]) (hne e)

theorem isSome_withOpen {w : Workspace} (h : w.Sound L) {α : Type} (file : String)
    (f : Options → Document → α × Document) : (w.withOpen file f).1.isSome = w.isOpen file := by
  unfold Workspace.withOpen Workspace.isOpen
  cases hn : w.get? file with
  | none => rfl
  | some n =>
    obtain ⟨d, hd, -⟩ := h.file_of_get? hn
    simp [Workspace.withDocument, hd]

theorem Sound.fileExists_block (h : ov.Sound L) (host : Host) {name : String} {i : Identifier}
    (hk : FileKind.classify name = .block i) :
    (ov.fileExists host name).1 = (ov.read host name).1.isSome := by
  simp only [Overlay.fileExists, Overlay.read, hk]
  exact (isSome_readBlock h.1 hk).symm

theorem Sound.fileExists_eq (h : ov.Sound L) (host : Host) (name : String)
    (hhost : host.has name = true ↔ ∃ text, host.read name = .ok text) :
    (ov.fileExists host name).1 = (ov.read host name).1.isSome := by
  have hdisk : host.has name = (host.read name).toOption.isSome := by
    rw [Bool.eq_iff_iff, hhost]
    cases host.read name <;> simp [Except.toOption]
  cases hk : FileKind.classify name with
  | block i => exact h.fileExists_block host hk
  | main file =>
    simp only [Overlay.fileExists, Overlay.read, hk]
    exact (isSome_withOpen h.1 file readMain).symm
  | composite =>
    simp only [Overlay.fileExists, Overlay.read, hk]
    split
    · next hopen =>
      have hopen' := isSome_withOpen h.1 name fun _ d => (d.source.text, d)
      simp only [hopen, Bool.true_or]
      exact (hopen'.trans hopen).symm
    · next hclosed =>
      rw [Bool.not_eq_true] at hclosed
      simp only [hclosed, Bool.false_or, hdisk]
  | plain =>
    simp only [Overlay.fileExists, Overlay.read, hk]
    exact hdisk

theorem read_fileExists (ov : Overlay) (host : Host) (name : String) :
    (ov.fileExists host name).2.read host name = ov.read host name := by
  cases hk : FileKind.classify name with
  | block i =>
    have hidem := Workspace.documentById_idem ov.workspace i.file name
    simp only [Overlay.fileExists, Overlay.read, hk, withWorkspace, readBlock, hidem]
  | main file => simp only [Overlay.fileExists, hk]
  | composite => simp only [Overlay.fileExists, hk]
  | plain => simp only [Overlay.fileExists, hk]

end Overlay

namespace HandedOverlay

/-- In every state that commands lead to, a name exists if and only if it can be read, also when it
is read after the question. The name of a block is never refused. -/
theorem fileExists_eq_isSome_read (o : Options) (commands : List Command) (host : Host)
    (name : String) (hhost : host.has name = true ↔ ∃ text, host.read name = .ok text) :
    let ov := ((start o).run commands).overlay
    (ov.fileExists host name).1 = (ov.read host name).1.isSome ∧
      (ov.fileExists host name).2.read host name = ov.read host name ∧
      ∀ i, FileKind.classify name = .block i →
        ∀ e, (ov.workspace.documentById i.file name).1 ≠ .error e := by
  intro ov
  obtain ⟨L, hsound, -⟩ := (sound_start o).run commands
  exact ⟨hsound.fileExists_eq host name hhost, Overlay.read_fileExists ov host name,
    fun i hk => Overlay.documentById_ne_error hsound.1 hk⟩

theorem fileExists_eq_isSome_read_pug :
    let template : Block := ⟨.template, some "pug", .ofList [], ⟨0, 0⟩, "p"⟩
    let host : Host := ⟨fun _ => false, fun _ => .error []⟩
    let ov := ((start ⟨fun _ => { blocks := [template] }, .builtin, none⟩).run
      [.openText "/src/Foo.vue" "x" 1]).overlay
    let name := "/src/Foo.vue?vue&type=template&lang.tsx"
    (host.has name = true ↔ ∃ text, host.read name = .ok text) ∧
      (ov.fileExists host name).1 = true ∧ (ov.read host name).1.isSome = true ∧
      (ov.read host name).1 =
        some "/*\nError: `pug` is not supported for `template` blocks\n*/" := by
  intro template host ov name
  have hhost : host.has name = true ↔ ∃ text, host.read name = .ok text := by simp [host]
  have hexists : (ov.fileExists host name).1 = true := by decide +kernel
  obtain ⟨hread, -, -⟩ := fileExists_eq_isSome_read _ _ host name hhost
  exact ⟨hhost, hexists, hread.symm.trans hexists, by decide +kernel⟩

end HandedOverlay

end BlockLens
