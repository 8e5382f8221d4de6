import BlockLens.Proofs.Composite.Consistent
/-!
Everything that can be asked of a composite document or done to it, as one type of actions. What
five operations keep, every action keeps.
-/

set_option autoImplicit false

namespace BlockLens

inductive Action where
  | update (changes : List Change) (version : Int)
  | markDirty
  /-- Reads the outline: its blocks, their names, the problems. -/
  | outline
  | mainModule
  | hasDocument (key : String)
  | drainEvicted
  | document (s : Slot)
  | documentAt (offset : Nat)
  | documentById (id : String)

namespace Action

def run (o : Options) : Action → Document → Option BlockDocument × Document
  | .update changes version, d => (none, (d.update changes version).2)
  | .markDirty, d => (none, d.markDirty)
  | .outline, d => (none, d.refresh o)
  | .mainModule, d => (none, (d.mainModule o).2)
  | .hasDocument key, d => (none, (d.hasDocument o key).2)
  | .drainEvicted, d => (none, (d.drainEvicted o).2)
  | .document s, d => d.blockDocument o s
  | .documentAt offset, d => d.documentAt o offset
  | .documentById id, d =>
    let p := d.documentById o id
    (p.1.toOption.join, p.2)

/-- The operations that all actions are made of keep `P`. -/
structure Keeps (o : Options) (P : Document → Prop) : Prop where
  edit : ∀ (d : Document) (s : Source), P d → P { d with source := s }.markDirty
  markDirty : ∀ d : Document, P d → P d.markDirty
  refresh : ∀ d : Document, P d → P (d.refresh o)
  document : ∀ (d : Document) (s : Slot), P d → P (d.blockDocument o s).2
  drain : ∀ d : Document, P d → P (d.drainEvicted o).2

theorem Keeps.run {o : Options} {P : Document → Prop} (k : Keeps o P) (a : Action) {d : Document}
    (h : P d) : P (a.run o d).2 := by
  cases a with
  | update changes version =>
    simp only [Action.run, Document.update]
    split
    · exact k.edit d _ h
    · exact h
  | markDirty => exact k.markDirty d h
  | outline => exact k.refresh d h
  | mainModule => exact k.refresh d h
  | hasDocument key => exact k.refresh d h
  | drainEvicted => exact k.drain d h
  | document s => exact k.document d s h
  | documentAt offset =>
    simp only [Action.run, Document.documentAt]
    split
    · exact k.document _ _ (k.refresh d h)
    · exact k.refresh d h
  | documentById id =>
    simp only [Action.run, Document.documentById]
    split
    · exact h
    · split
      · exact h
      · split
        · exact k.document d _ h
        · exact h

theorem Keeps.and {o : Options} {P Q : Document → Prop} (p : Keeps o P) (q : Keeps o Q) :
    Keeps o fun d => P d ∧ Q d where
  edit d s h := ⟨p.edit d s h.1, q.edit d s h.2⟩
  markDirty d h := ⟨p.markDirty d h.1, q.markDirty d h.2⟩
  refresh d h := ⟨p.refresh d h.1, q.refresh d h.2⟩
  document d s h := ⟨p.document d s h.1, q.document d s h.2⟩
  drain d h := ⟨p.drain d h.1, q.drain d h.2⟩

end Action

namespace Composite

variable {o : Options}

theorem file_refresh (text : String) (c : Composite) : (c.refresh o text).file = c.file := by
  rcases refresh_cases o text c with ⟨-, hr⟩ | ⟨-, -, hr⟩ | ⟨-, -, hr⟩ <;> rw [hr]
  rfl

theorem dirty_refresh (text : String) (c : Composite) : (c.refresh o text).dirty = false := by
  rcases refresh_cases o text c with ⟨hd, hr⟩ | ⟨-, -, hr⟩ | ⟨-, -, hr⟩ <;> rw [hr]
  · exact hd
  · rfl

theorem isSome_parsed_refresh {c : Composite} (h : Consistent o c) (text : String) :
    (c.refresh o text).parsed.isSome = true := by
  rcases refresh_cases o text c with ⟨hd, hr⟩ | ⟨-, hp, hr⟩ | ⟨-, -, hr⟩ <;> rw [hr]
  · cases hp : c.parsed with
    | none => simp [(h.unparsed hp).1] at hd
    | some t => rfl
  · simp [hp]
  · rfl

theorem refresh_of_clean {c : Composite} (h : c.dirty = false) (text : String) :
    c.refresh o text = c := by simp [refresh, h]

theorem document_eq (s : Slot) (c : Composite) :
    ∃ live created, (c.document o s).2 = { c with live, created } := by
  unfold document
  split
  · split
    · exact ⟨_, _, rfl⟩
    · exact ⟨_, _, rfl⟩
  · exact ⟨_, _, rfl⟩

theorem mem_live_document {s : Slot} {c : Composite} {d : BlockDocument}
    (h : (c.document o s).1 = some d) : d ∈ (c.document o s).2.live := by
  cases hi : idIn o c.file c.outline s with
  | none => simp [document_of_no_id hi] at h
  | some i =>
    cases hf : c.live.find? (·.key = i.text) with
    | some b =>
      rw [document_of_find hi hf] at h ⊢
      simp only [Option.some.injEq] at h
      exact h ▸ List.mem_of_find?_eq_some hf
    | none =>
      obtain ⟨b, -, hd⟩ := document_of_not_find hi hf
      rw [hd] at h ⊢
      simp only [Option.some.injEq] at h
      simp [h]

end Composite

namespace Document

variable {o : Options}

/-- The text that was parsed is the present one, unless the document is marked. -/
def Tracks (d : Document) : Prop :=
  d.composite.dirty = false → d.composite.parsed = some d.source.text

/-- Behind the reading, only the live documents and their count change. -/
theorem blockDocument_eq (s : Slot) (d : Document) :
    ∃ live created, (d.blockDocument o s).2 =
      { d with composite := { (d.refresh o).composite with live, created } } := by
  obtain ⟨live, created, hd⟩ := Composite.document_eq (o := o) s (d.refresh o).composite
  refine ⟨live, created, ?_⟩
  simp only [blockDocument, hd]
  rfl

@[simp] theorem outline_blockDocument (s : Slot) (d : Document) :
    (d.blockDocument o s).2.composite.outline = (d.refresh o).composite.outline := by
  obtain ⟨live, created, hd⟩ := blockDocument_eq (o := o) s d
  rw [hd]

theorem mem_live_blockDocument {s : Slot} {d : Document} {b : BlockDocument}
    (h : (d.blockDocument o s).1 = some b) : b ∈ (d.blockDocument o s).2.composite.live :=
  Composite.mem_live_document h

theorem keeps_file (o : Options) (file : String) :
    Action.Keeps o fun d => d.composite.file = file where
  edit d s h := h
  markDirty d h := h
  refresh d h := (Composite.file_refresh _ _).trans h
  document d s h := by
    obtain ⟨live, created, hd⟩ := blockDocument_eq (o := o) s d
    rw [hd]
    exact (Composite.file_refresh _ _).trans h
  drain d h := (Composite.file_refresh _ _).trans h

theorem keeps_consistent (o : Options) : Action.Keeps o fun d => d.composite.Consistent o where
  edit _ _ h := h.markDirty
  markDirty _ h := h.markDirty
  refresh _ h := h.refresh _
  document _ s h := (h.refresh _).document s (Composite.isSome_parsed_refresh h _)
  drain _ h := (h.refresh _).drain

theorem refresh_of_clean {d : Document} (h : d.composite.dirty = false) : d.refresh o = d := by
  simp [refresh, Composite.refresh_of_clean h]

theorem tracks_refresh {d : Document} (h : d.Tracks) : (d.refresh o).Tracks := by
  unfold Tracks refresh at *
  rcases Composite.refresh_cases o d.source.text d.composite with ⟨-, hr⟩ | ⟨-, hp, hr⟩ | ⟨-, -, hr⟩ <;>
    rw [hr]
  · exact h
  · exact fun _ => hp
  · exact fun _ => rfl

theorem keeps_tracks (o : Options) : Action.Keeps o Tracks where
  edit d s h := by simp [Tracks, Document.markDirty]
  markDirty d h := by simp [Tracks, Document.markDirty]
  refresh d h := tracks_refresh h
  document d s h := by
    obtain ⟨live, created, hd⟩ := blockDocument_eq (o := o) s d
    rw [hd]
    exact tracks_refresh h
  drain d h := tracks_refresh h

/-- What a new parse keeps of the outline, every action keeps. -/
theorem keeps_outline {o : Options} {P : Outline → Prop}
    (hp : ∀ (c : Composite) (text : String), c.Consistent o → P c.outline → P (c.next o text)) :
    Action.Keeps o fun d => d.composite.Consistent o ∧ P d.composite.outline := by
  have fresh : ∀ d : Document, d.composite.Consistent o → P d.composite.outline →
      P (d.refresh o).composite.outline := by
    intro d hc h
    unfold refresh
    rcases Composite.refresh_cases o d.source.text d.composite with ⟨-, hr⟩ | ⟨-, -, hr⟩ | ⟨-, -, hr⟩ <;>
      rw [hr]
    · exact h
    · exact h
    · rw [Composite.outline_reparse]
      exact hp _ _ hc h
  have consistent := keeps_consistent o
  refine ⟨fun d s h => ⟨consistent.edit d s h.1, h.2⟩, fun d h => ⟨consistent.markDirty d h.1, h.2⟩,
    fun d h => ⟨consistent.refresh d h.1, fresh d h.1 h.2⟩,
    fun d s h => ⟨consistent.document d s h.1, ?_⟩, fun d h => ⟨consistent.drain d h.1, fresh d h.1 h.2⟩⟩
  rw [outline_blockDocument]
  exact fresh d h.1 h.2

/-- What holds of the stand-in and of every block that the parser finds holds of every block that
is ever shown. -/
theorem keeps_blocks {o : Options} {P : Block → Prop}
    (hp : ∀ t, ∀ b ∈ (o.parser t).blocks, P b) (hf : P Composite.fallback.block) :
    Action.Keeps o fun d =>
      d.composite.Consistent o ∧ ∀ e ∈ d.composite.outline.entries, P e.block := by
  refine keeps_outline (P := fun d => ∀ e ∈ d.entries, P e.block) fun c text hc h e he => ?_
  rcases hc.mem_entries_next he with ⟨i, -, hb⟩ | rfl | he
  · exact hp _ _ (List.mem_of_getElem? hb)
  · exact hf
  · exact h e he

theorem keeps_slots {o : Options} {P : Slot → Prop}
    (hp : ∀ t parse s e, (Outline.ofBlocks parse (o.parser t).blocks).1.get? s = some e → P s)
    (hf : P .script) :
    Action.Keeps o fun d =>
      d.composite.Consistent o ∧ ∀ s e, d.composite.outline.get? s = some e → P s := by
  refine keeps_outline (P := fun d => ∀ s e, d.get? s = some e → P s) fun c text hc h s e he => ?_
  rcases Composite.isSome_get?_merge hc.prev_kinded he with ⟨x, hx⟩ | rfl | ⟨p, hmem, x, hx⟩
  · exact hp _ _ s x hx
  · exact hf
  · split at hmem
    · simp only [Option.mem_def, Option.some.injEq] at hmem
      exact h s x (hmem ▸ hx)
    · simp at hmem

end Document

theorem Action.mem_live_run {o : Options} {a : Action} {d : Document} {b : BlockDocument}
    (h : (a.run o d).1 = some b) : b ∈ (a.run o d).2.composite.live := by
  cases a with
  | document s => exact Document.mem_live_blockDocument h
  | documentAt offset =>
    simp only [run, Document.documentAt] at h ⊢
    split at h
    · exact Document.mem_live_blockDocument h
    · simp at h
  | documentById id =>
    simp only [run, Document.documentById] at h ⊢
    split at h
    · simp [Except.toOption] at h
    · split at h
      · simp [Except.toOption] at h
      · split at h
        · next hn _ _ hs =>
          simp only [Except.toOption, Option.join_some] at h
          have := Document.mem_live_blockDocument h
          simp_all
        · simp [Except.toOption] at h
  | update | markDirty | outline | mainModule | hasDocument | drainEvicted => simp [run] at h

end BlockLens
