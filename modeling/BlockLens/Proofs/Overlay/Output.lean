import BlockLens.Proofs.Composite.Lifetime
import BlockLens.Proofs.Overlay.Works

set_option autoImplicit false

namespace BlockLens

theorem Workspace.entryOf_look (w : Workspace) (x y : Handle) :
    (w.look x).2.entryOf y = w.entryOf y := by
  obtain ⟨kept, hk⟩ := Workspace.look_frame w x
  rw [hk]
  rfl

namespace HandedOverlay

variable {σ : HandedOverlay}

theorem mem_handed_exec {x : Handle} (hx : x ∈ σ.handed) (c : Command) :
    x ∈ (σ.exec c).handed := by
  cases c with
  | act n a => exact List.mem_append_left _ hx
  | look i =>
    simp only [exec, Session.look]
    split <;> exact hx
  | storeOpenSource file source =>
    simp only [exec]
    split <;> exact hx
  | _ => exact hx

theorem mem_handed_run {x : Handle} (hx : x ∈ σ.handed) (commands : List Command) :
    x ∈ (σ.run commands).handed := by
  induction commands generalizing σ with
  | nil => exact hx
  | cons c commands ih => exact ih (mem_handed_exec hx c)

theorem mem_handed_act {n : Nat} {a : Action} {b : BlockDocument}
    (hb : (σ.overlay.workspace.withDocument n a.run).1.join = some b) :
    ⟨n, b⟩ ∈ (σ.exec (.act n a)).handed := by
  refine List.mem_append_right _ ?_
  simp [session, hb]

/-- In every state, every live document is of the object that stands in its slot. -/
theorem original_run (o : Options) (commands : List Command) :
    ∀ f ∈ ((start o).run commands).overlay.workspace.composites, f.composite.Original := by
  have hrun := composites_run (P := fun c => c.Consistent o ∧ c.Original) o
    (Document.keeps_original o)
    (fun file => ⟨Composite.consistent_new o file, by simp [Composite.Original]⟩) commands
  exact fun f hf => (hrun f hf).2

theorem initial_of_act {o : Options} {n : Nat} {a : Action} {b : BlockDocument}
    (before : List Command)
    (hb : (((start o).run before).overlay.workspace.withDocument n a.run).1.join = some b) :
    (((start o).run before).exec (.act n a)).overlay.workspace.composites[n]?.bind
      (·.composite.outline.get? b.slot) = some b.initial := by
  have hrun : ((start o).run before).exec (.act n a) = (start o).run (before ++ [.act n a]) := by
    simp [run]
  have horiginal := original_run o (before ++ [.act n a])
  rw [← hrun] at horiginal
  generalize (start o).run before = σ at hb horiginal ⊢
  cases hd : σ.overlay.workspace.document? n with
  | none => simp [Workspace.withDocument, hd] at hb
  | some d =>
    simp only [Workspace.withDocument, hd, Option.join_some] at hb
    obtain ⟨f, hf, -, hc⟩ :=
      Workspace.document?_eq_some.1 (Workspace.document?_put_self hd (a.run _ d).2)
    have hw : (σ.exec (.act n a)).overlay.workspace =
        σ.overlay.workspace.put n (a.run σ.overlay.workspace.options d).2 := by
      simp [exec, session, withSession, Session.act, Workspace.withDocument, hd]
    rw [hw] at horiginal ⊢
    rw [hf, Option.bind_some]
    refine horiginal f (List.mem_of_getElem? hf) b ?_
    rw [hc]
    exact Action.mem_live_run hb

theorem Sound.look_eq (h : σ.Sound) {x : Handle} (hx : x ∈ σ.handed) :
    (σ.overlay.workspace.look x).1 = View.ofBlock x.doc (σ.overlay.workspace.entryOf x).block := by
  obtain ⟨L, ⟨hs, -⟩, hh⟩ := h
  exact hs.look_eq (hh x hx)

theorem entryOf_looks (σ : HandedOverlay) (looks : List Nat) (x : Handle) :
    (σ.run (looks.map .look)).overlay.workspace.entryOf x = σ.overlay.workspace.entryOf x := by
  induction looks generalizing σ with
  | nil => rfl
  | cons i looks ih =>
    refine (ih (σ.exec (.look i))).trans ?_
    simp only [exec, Session.look]
    split
    · exact Workspace.entryOf_look _ _ _
    · rfl

end HandedOverlay

theorem BlockDocument.generate_eq_error {b : BlockDocument} {x : Block} {e : TransformError} :
    b.generate x = .error e ↔
      ∃ t, b.transformer = some t ∧ t.run x ⟨b.id.file, b.slot, b.scriptImport⟩ = .error e := by
  unfold generate
  cases b.transformer with
  | none => simp
  | some t => cases h : t.run x ⟨b.id.file, b.slot, b.scriptImport⟩ <;> simp [h, Except.map]

namespace HandedOverlay

/-- A document that was once handed out stands for the block that its owner has in the slot, and for
the block it was made from where the owner is gone or has none there. Whatever is done after it was
handed out, a look shows that block and what the transformer makes of it, looks in between make no
difference, and a failure is shown only while the transformer fails on the block. -/
theorem look_generates_current (o : Options) (before : List Command) (n : Nat) (a : Action)
    (b : BlockDocument)
    (hb : (((start o).run before).overlay.workspace.withDocument n a.run).1.join = some b) :
    let handing := ((start o).run before).exec (.act n a)
    let context : Context := ⟨b.id.file, b.slot, b.scriptImport⟩
    handing.overlay.workspace.composites[n]?.bind (·.composite.outline.get? b.slot) =
        some b.initial ∧
      ∀ after : List Command,
        let σ := handing.run after
        let w := σ.overlay.workspace
        let owner := if w.isAlive n then w.composites[n]?.map (·.composite.outline) else none
        let shown := ((owner.bind (·.get? b.slot)).getD b.initial).block
        let view := (w.look ⟨n, b⟩).1
        (view.doc = b ∧ view.block = shown ∧
          view.generated = match b.transformer with
            | none => .ok none
            | some t => (t.run shown context).map some) ∧
        (∀ looks : List Nat,
          ((σ.run (looks.map .look)).overlay.workspace.look ⟨n, b⟩).1 = view) ∧
        ∀ e, view.generated = .error e ↔
          ∃ t, b.transformer = some t ∧ t.run shown context = .error e := by
  intro handing context
  refine ⟨initial_of_act before hb, ?_⟩
  intro after σ w owner shown view
  have hsound : σ.Sound := (((sound_start o).run before).exec (.act n a)).run after
  have hhanded : ⟨n, b⟩ ∈ σ.handed := mem_handed_run (mem_handed_act hb) after
  have hview : view = View.ofBlock b shown := hsound.look_eq hhanded
  refine ⟨?_, fun looks => ?_, fun e => ?_⟩
  · rw [hview]
    exact ⟨rfl, rfl, rfl⟩
  · rw [(hsound.run _).look_eq (mem_handed_run hhanded _), entryOf_looks, hview]
    rfl
  · rw [hview]
    exact BlockDocument.generate_eq_error

/-- A template in a language that nothing reads, until an edit takes the language away. When the
file is closed, the document stands for the template it was made from again. -/
theorem look_generates_current_closed :
    let opening : List Command := [.openText "/a.vue" "<template lang=\"pug\"></template>" 1]
    let template : Action := .document .template
    let failing : List Command := [.look 0]
    let edited : List Command :=
      failing ++ [.act 0 (.update [⟨none, "<template></template>"⟩] 2), .act 0 .outline]
    let closed : List Command := edited ++ [.look 0, .close "/a.vue"]
    let σ := (start .default).run opening
    let view := fun (b : BlockDocument) (after : List Command) =>
      (((σ.exec (.act 0 template)).run after).overlay.workspace.look ⟨0, b⟩).1
    let failure : TransformError := .unsupportedLanguage "template" "pug"
    ∃ b, (σ.overlay.workspace.withDocument 0 template.run).1.join = some b ∧
      (view b failing).generated = .error failure ∧
      (∀ e, (view b edited).generated ≠ .error e) ∧
      (view b closed).generated = .error failure := by
  intro opening template failing edited closed σ view failure
  let handed := (σ.overlay.workspace.withDocument 0 template.run).1.join
  let tried := fun (b : BlockDocument) (after : List Command) =>
    let w := ((σ.exec (.act 0 template)).run after).overlay.workspace
    b.transformer.map fun t =>
      t.run (w.entryOf ⟨0, b⟩).block ⟨b.id.file, b.slot, b.scriptImport⟩
  have hsome : handed.isSome = true := by decide +kernel
  have htried : ∀ b ∈ handed, tried b failing = some (.error failure) ∧
      (∀ r ∈ tried b edited, r.toOption.isSome = true) ∧
      tried b closed = some (.error failure) := by decide +kernel
  obtain ⟨b, hb⟩ := Option.isSome_iff_exists.1 hsome
  obtain ⟨hfailing, hedited, hclosed⟩ := htried b hb
  obtain ⟨-, hafter⟩ := look_generates_current .default opening 0 template b hb
  have fails := fun (after : List Command) (e : TransformError) => (hafter after).2.2 e
  refine ⟨b, hb, ?_, fun e he => ?_, ?_⟩
  · exact (fails failing failure).2 (Option.map_eq_some_iff.1 hfailing)
  · obtain ⟨t, ht, hrun⟩ := (fails edited e).1 he
    have hread := hedited (.error e) (Option.map_eq_some_iff.2 ⟨t, ht, hrun⟩)
    exact absurd hread (by simp [Except.toOption])
  · exact (fails closed failure).2 (Option.map_eq_some_iff.1 hclosed)

end HandedOverlay

end BlockLens
