import BlockLens.Proofs.Workspace.Opening

set_option autoImplicit false

namespace BlockLens

/-- A workspace, and the block documents that it handed out. -/
structure Session where
  workspace : Workspace
  handed : List Handle := []

inductive Step where
  | act (a : Action)
  /-- Edits the text without a word to the document. -/
  | edit (changes : List Change) (version : Int)
  /-- Looks at the document that was handed out as the `i`-th. -/
  | look (i : Nat)

namespace Session

def act (n : Nat) (a : Action) (σ : Session) : Session :=
  let p := σ.workspace.withDocument n a.run
  ⟨p.2, σ.handed ++ (p.1.join.map fun b => ⟨n, b⟩).toList⟩

def edit (n : Nat) (changes : List Change) (version : Int) (σ : Session) : Session :=
  match σ.workspace.composites[n]? with
  | some f => { σ with workspace := (σ.workspace.editSource f.source changes version).2 }
  | none => σ

def look (i : Nat) (σ : Session) : Session :=
  match σ.handed[i]? with
  | some h => { σ with workspace := (σ.workspace.look h).2 }
  | none => σ

def step (n : Nat) (σ : Session) : Step → Session
  | .act a => σ.act n a
  | .edit changes version => σ.edit n changes version
  | .look i => σ.look i

def run (n : Nat) (σ : Session) (steps : List Step) : Session := steps.foldl (step n) σ

def opened (o : Options) (file text : String) (version : Int) : Session :=
  { workspace := (({ options := o } : Workspace).openText file text version).2 }

def Sound (σ : Session) (L : Nat → Ledger) : Prop :=
  σ.workspace.Sound L ∧ ∀ h ∈ σ.handed, (L h.owner).docs h.doc

theorem Sound.act {σ : Session} {L : Nat → Ledger} (h : σ.Sound L) (n : Nat) (a : Action) :
    ∃ L', Workspace.Grows L L' ∧ (σ.act n a).Sound L' := by
  cases hd : σ.workspace.document? n with
  | none =>
    refine ⟨L, .refl L, ?_⟩
    simpa [Session.act, Workspace.withDocument, hd] using h
  | some d =>
    obtain ⟨L', hg, hs, hb⟩ := h.1.put_run hd a
    refine ⟨L', hg, by simpa [Session.act, Workspace.withDocument, hd] using hs, fun x hx => ?_⟩
    simp only [Session.act, Workspace.withDocument, hd, Option.join_some, List.mem_append,
      Option.mem_toList, Option.map_eq_some_iff] at hx
    rcases hx with hx | ⟨b, hrun, rfl⟩
    · exact (hg _).1 _ (h.2 x hx)
    · exact hb b hrun

theorem Sound.edit {σ : Session} {L : Nat → Ledger} (h : σ.Sound L) (n : Nat)
    (changes : List Change) (version : Int) : (σ.edit n changes version).Sound L := by
  unfold Session.edit
  split
  · exact ⟨h.1.editSource _ changes version, h.2⟩
  · exact h

theorem Sound.look {σ : Session} {L : Nat → Ledger} (h : σ.Sound L) (i : Nat) :
    (σ.look i).Sound L := by
  unfold Session.look
  split
  · next x hx => exact ⟨h.1.look (h.2 x (List.mem_of_getElem? hx)), h.2⟩
  · exact h

theorem Sound.step {σ : Session} {L : Nat → Ledger} (h : σ.Sound L) (n : Nat) (s : Step) :
    ∃ L', Workspace.Grows L L' ∧ (σ.step n s).Sound L' := by
  cases s with
  | act a => exact h.act n a
  | edit changes version => exact ⟨L, .refl L, h.edit n changes version⟩
  | look i => exact ⟨L, .refl L, h.look i⟩

theorem Sound.run {σ : Session} {L : Nat → Ledger} (h : σ.Sound L) (n : Nat) (steps : List Step) :
    ∃ L', Workspace.Grows L L' ∧ (σ.run n steps).Sound L' := by
  induction steps generalizing σ L with
  | nil => exact ⟨L, .refl L, h⟩
  | cons s steps ih =>
    obtain ⟨L₁, hg₁, h₁⟩ := h.step n s
    obtain ⟨L₂, hg₂, h₂⟩ := ih h₁
    exact ⟨L₂, hg₁.trans hg₂, h₂⟩

def Holds (o : Options) (n : Nat) (P : Document → Prop) (σ : Session) : Prop :=
  σ.workspace.options = o ∧ σ.workspace.isAlive n = true ∧ ∃ d, σ.workspace.document? n = some d ∧ P d

theorem Holds.look {o : Options} {n : Nat} {P : Document → Prop} {σ : Session} (h : σ.Holds o n P)
    (i : Nat) : (σ.look i).Holds o n P := by
  unfold Session.look
  split
  · next x _ =>
    obtain ⟨kept, hk⟩ := Workspace.look_frame σ.workspace x
    simp only [Holds, hk]
    exact h
  · exact h

theorem Holds.act {o : Options} {n : Nat} {P : Document → Prop} (k : Action.Keeps o P) {σ : Session}
    (h : σ.Holds o n P) (a : Action) : (σ.act n a).Holds o n P := by
  obtain ⟨rfl, ha, d, hd, hp⟩ := h
  simp only [Session.act, Workspace.withDocument, hd, Holds, Workspace.options_put,
    Workspace.isAlive_put]
  exact ⟨trivial, ha, _, Workspace.document?_put_self hd _, k.run a hp⟩

theorem Holds.edit {o : Options} {n : Nat} {P : Document → Prop}
    (k : ∀ (d : Document) (s : Source), P d → P { d with source := s }) {σ : Session}
    (h : σ.Holds o n P) (changes : List Change) (version : Int) :
    (σ.edit n changes version).Holds o n P := by
  obtain ⟨ho, ha, d, hd, hp⟩ := h
  unfold Session.edit
  split
  · next f _ =>
    obtain ⟨s, hs⟩ := Workspace.document?_editSource hd f.source changes version
    obtain ⟨sources, -, hw⟩ := Workspace.editSource_frame σ.workspace f.source changes version
    refine ⟨by simpa only [hw] using ho, ?_, _, hs, k d s hp⟩
    rw [hw]
    exact ha
  · exact ⟨ho, ha, d, hd, hp⟩

/-- What every action keeps holds at the end of every run. If the text matters to it, edits behind
the back are excluded. -/
theorem Holds.run {o : Options} {n : Nat} {P : Document → Prop} (k : Action.Keeps o P) {σ : Session}
    (h : σ.Holds o n P) (steps : List Step)
    (he : ∀ changes version, Step.edit changes version ∈ steps →
      ∀ (d : Document) (s : Source), P d → P { d with source := s }) :
    (σ.run n steps).Holds o n P := by
  induction steps generalizing σ with
  | nil => exact h
  | cons s steps ih =>
    have later := fun changes version hs => he changes version (List.mem_cons_of_mem _ hs)
    cases s with
    | act a => exact ih (h.act k a) later
    | edit changes version =>
      exact ih (h.edit (he changes version List.mem_cons_self) changes version) later
    | look i => exact ih (h.look i) later

theorem sound_opened (o : Options) (file text : String) (version : Int) :
    ∃ L, (opened o file text version).Sound L :=
  ⟨_, (Workspace.sound_empty o).openText file text version, by simp [opened]⟩

theorem holds_opened (o : Options) (file text : String) (version : Int) {P : Document → Prop}
    (h : P (Document.ofText file text version)) : (opened o file text version).Holds o 0 P :=
  ⟨rfl, by simp [opened, Workspace.openText, Workspace.openSource, Workspace.addSource,
    Workspace.get?, Workspace.isAlive], Document.ofText file text version, rfl, h⟩

/-- Without edits behind its back, a document that is not marked has parsed the present text. -/
theorem tracks_run (o : Options) (file text : String) (version : Int) {steps : List Step}
    (he : ∀ changes v, Step.edit changes v ∉ steps) {d : Document}
    (hd : ((opened o file text version).run 0 steps).workspace.document? 0 = some d) : d.Tracks := by
  obtain ⟨-, -, d', hd', ht⟩ := Holds.run (Document.keeps_tracks o)
    (holds_opened o file text version (by simp [Document.Tracks, Document.ofText])) steps
    fun changes v hs => absurd hs (he changes v)
  rw [hd, Option.some.injEq] at hd'
  exact hd' ▸ ht

end Session

end BlockLens
