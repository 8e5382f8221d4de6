import BlockLens.Proofs.Workspace.Ledger
import BlockLens.Workspace

set_option autoImplicit false

namespace BlockLens.Workspace

open Outline

/-- `L n` lists what the composite with number `n` ever made. -/
structure Sound (w : Workspace) (L : Nat → Ledger) : Prop where
  source : ∀ (n : Nat) (f : Filed), w.composites[n]? = some f → f.source < w.sources.length
  opened : ∀ p ∈ w.opened, ∃ f, w.composites[p.2]? = some f ∧ f.composite.file = p.1
  consistent : ∀ (n : Nat) (f : Filed), w.composites[n]? = some f → f.composite.Consistent w.options
  covers : ∀ (n : Nat) (f : Filed), w.composites[n]? = some f → (L n).Covers f.composite
  unmade : ∀ n : Nat, w.composites[n]? = none → L n = .start
  kept : ∀ x ∈ w.kept, ∃ d e, (L x.1.1).docs d ∧ d.serial = x.1.2 ∧ (L x.1.1).entries e ∧
    e.stamp = x.2.stamp ∧ x.2.generated = d.generate e.block

def Grows (L L' : Nat → Ledger) : Prop := ∀ n, (L n).Within (L' n)

theorem Grows.refl (L : Nat → Ledger) : Grows L L := fun n => .refl (L n)

theorem Grows.trans {L M N : Nat → Ledger} (h : Grows L M) (h' : Grows M N) : Grows L N :=
  fun n => (h n).trans (h' n)

theorem sound_empty (o : Options) : Sound { options := o } fun _ => .start where
  source := by simp
  opened := by simp
  consistent := by simp
  covers := by simp
  unmade := by simp
  kept := by simp

variable {w : Workspace} {L : Nat → Ledger}

theorem document?_eq_some {n : Nat} {d : Document} :
    w.document? n = some d ↔
      ∃ f, w.composites[n]? = some f ∧ w.sources[f.source]? = some d.source ∧
        f.composite = d.composite := by
  obtain ⟨s, c⟩ := d
  simp only [document?, Option.bind_eq_some_iff, Option.map_eq_some_iff, Document.mk.injEq]
  constructor
  · rintro ⟨f, hf, t, ht, rfl, hc⟩
    exact ⟨f, hf, ht, hc⟩
  · rintro ⟨f, hf, ht, hc⟩
    exact ⟨f, hf, s, ht, rfl, hc⟩

theorem Sound.exists_document? (h : w.Sound L) {n : Nat} {f : Filed} (hf : w.composites[n]? = some f) :
    ∃ d, w.document? n = some d ∧ d.composite = f.composite := by
  have hs := h.source n f hf
  exact ⟨⟨w.sources[f.source], f.composite⟩,
    document?_eq_some.2 ⟨f, hf, List.getElem?_eq_getElem hs, rfl⟩, rfl⟩

theorem Sound.document_consistent (h : w.Sound L) {n : Nat} {d : Document}
    (hd : w.document? n = some d) : d.composite.Consistent w.options := by
  obtain ⟨f, hf, -, hc⟩ := document?_eq_some.1 hd
  exact hc ▸ h.consistent n f hf

theorem put_eq {n : Nat} {f : Filed} (hf : w.composites[n]? = some f) (d : Document) :
    w.put n d =
      { w with
        sources := w.sources.set f.source d.source
        composites := w.composites.set n { f with composite := d.composite } } := by
  simp [put, hf]

theorem document?_put_self {n : Nat} {d : Document} (hd : w.document? n = some d) (d' : Document) :
    (w.put n d').document? n = some d' := by
  obtain ⟨f, hf, hs, -⟩ := document?_eq_some.1 hd
  obtain ⟨hn, -⟩ := List.getElem?_eq_some_iff.1 hf
  obtain ⟨hk, -⟩ := List.getElem?_eq_some_iff.1 hs
  rw [put_eq hf]
  exact document?_eq_some.2 ⟨_, List.getElem?_set_self hn, List.getElem?_set_self hk, rfl⟩

@[simp] theorem isAlive_put (w : Workspace) (n m : Nat) (d : Document) :
    (w.put n d).isAlive m = w.isAlive m := by
  unfold Workspace.put
  split <;> rfl

@[simp] theorem options_put (w : Workspace) (n : Nat) (d : Document) :
    (w.put n d).options = w.options := by
  unfold Workspace.put
  split <;> rfl

theorem getElem?_composites_set {n m : Nat} {f f' g : Filed} (hf : w.composites[n]? = some f)
    (hg : (w.composites.set n f')[m]? = some g) :
    m = n ∧ g = f' ∨ m ≠ n ∧ w.composites[m]? = some g := by
  obtain ⟨hn, -⟩ := List.getElem?_eq_some_iff.1 hf
  by_cases hm : m = n
  · rw [hm, List.getElem?_set_self hn, Option.some.injEq] at hg
    exact .inl ⟨hm, hg.symm⟩
  · rw [List.getElem?_set_ne (Ne.symm hm)] at hg
    exact .inr ⟨hm, hg⟩

theorem Sound.put (h : w.Sound L) {n : Nat} {d d' : Document} (hd : w.document? n = some d)
    (hfile : d'.composite.file = d.composite.file) (hc : d'.composite.Consistent w.options)
    {b : Ledger} (hw : (L n).Within b) (hb : b.Covers d'.composite) :
    ∃ L', Grows L L' ∧ (w.put n d').Sound L' ∧ L' n = b := by
  obtain ⟨f, hf, hs, hcomp⟩ := document?_eq_some.1 hd
  obtain ⟨hn, -⟩ := List.getElem?_eq_some_iff.1 hf
  let L' : Nat → Ledger := fun m => if m = n then b else L m
  have hgrow : Grows L L' := by
    intro m
    by_cases hm : m = n
    · simpa [L', hm] using hw
    · simpa [L', hm] using Ledger.Within.refl (L m)
  refine ⟨L', hgrow, ?_, by simp [L']⟩
  rw [put_eq hf]
  constructor
  case source =>
    intro m g hg
    rw [List.length_set]
    obtain ⟨-, rfl⟩ | ⟨-, hg⟩ := getElem?_composites_set hf hg
    · exact h.source n f hf
    · exact h.source m g hg
  case opened =>
    intro p hp
    obtain ⟨g, hg, hgf⟩ := h.opened p hp
    by_cases hm : p.2 = n
    · refine ⟨{ f with composite := d'.composite }, ?_, ?_⟩
      · rw [hm]; exact List.getElem?_set_self hn
      · rw [hm, hf, Option.some.injEq] at hg
        subst hg
        rw [← hgf, hcomp, ← hfile]
    · exact ⟨g, by rwa [List.getElem?_set_ne (Ne.symm hm)], hgf⟩
  case consistent =>
    intro m g hg
    obtain ⟨-, rfl⟩ | ⟨-, hg⟩ := getElem?_composites_set hf hg
    · exact hc
    · exact h.consistent m g hg
  case covers =>
    intro m g hg
    obtain ⟨rfl, rfl⟩ | ⟨hm, hg⟩ := getElem?_composites_set hf hg
    · simpa [L'] using hb
    · simpa [L', hm] using h.covers m g hg
  case unmade =>
    intro m hm
    by_cases hmn : m = n
    · subst hmn
      rw [List.getElem?_set_self hn] at hm
      contradiction
    · rw [List.getElem?_set_ne (Ne.symm hmn)] at hm
      simpa [L', hmn] using h.unmade m hm
  case kept =>
    intro x hx
    obtain ⟨doc, e, hdoc, hser, he, hst, hg⟩ := h.kept x hx
    exact ⟨doc, e, (hgrow _).1 doc hdoc, hser, (hgrow _).2 e he, hst, hg⟩

theorem Sound.put_run (h : w.Sound L) {n : Nat} {d : Document} (hd : w.document? n = some d)
    (a : Action) :
    ∃ L', Grows L L' ∧ (w.put n (a.run w.options d).2).Sound L' ∧
      ∀ b, (a.run w.options d).1 = some b → (L' n).docs b := by
  obtain ⟨f, hf, -, hcomp⟩ := document?_eq_some.1 hd
  have hcov : (L n).Covers d.composite := hcomp ▸ h.covers n f hf
  have hc := h.document_consistent hd
  obtain ⟨hc', b, hw, hb⟩ :=
    (Ledger.keeps_covers w.options (L n)).run a ⟨hc, L n, .refl _, hcov⟩
  have hfile := (Document.keeps_file w.options d.composite.file).run a rfl
  obtain ⟨L', hg, hs, hn⟩ := h.put hd hfile hc' hw hb
  exact ⟨L', hg, hs, fun x hx => hn ▸ hb.live x (Action.mem_live_run hx)⟩

theorem put_self {n : Nat} {d : Document} (hd : w.document? n = some d) : w.put n d = w := by
  obtain ⟨f, hf, hs, hc⟩ := document?_eq_some.1 hd
  rw [put_eq hf]
  have h₁ : w.sources.set f.source d.source = w.sources := by
    obtain ⟨hk, he⟩ := List.getElem?_eq_some_iff.1 hs
    rw [← he]
    exact List.set_getElem_self hk
  have h₂ : w.composites.set n { f with composite := d.composite } = w.composites := by
    obtain ⟨hn, he⟩ := List.getElem?_eq_some_iff.1 hf
    rw [← hc]
    simp only [← he]
    exact List.set_getElem_self hn
  rw [h₁, h₂]

theorem Sound.withDocument (h : w.Sound L) {α : Type} (n : Nat)
    (f : Options → Document → α × Document)
    (hf : ∀ d, ∃ a : Action, (f w.options d).2 = (a.run w.options d).2) :
    ∃ L', Grows L L' ∧ (w.withDocument n f).2.Sound L' := by
  unfold Workspace.withDocument
  cases hd : w.document? n with
  | none => exact ⟨L, .refl L, h⟩
  | some d =>
    obtain ⟨a, ha⟩ := hf d
    obtain ⟨L', hg, hs, -⟩ := h.put_run hd a
    exact ⟨L', hg, by simpa only [ha] using hs⟩

theorem Sound.withOpen (h : w.Sound L) {α : Type} (file : String)
    (f : Options → Document → α × Document)
    (hf : ∀ d, ∃ a : Action, (f w.options d).2 = (a.run w.options d).2) :
    ∃ L', Grows L L' ∧ (w.withOpen file f).2.Sound L' := by
  unfold Workspace.withOpen
  split
  · exact h.withDocument _ f hf
  · exact ⟨L, .refl L, h⟩

theorem editSource_frame (w : Workspace) (k : Nat) (changes : List Change) (version : Int) :
    ∃ sources, sources.length = w.sources.length ∧
      (w.editSource k changes version).2 = { w with sources } := by
  unfold editSource
  split
  · exact ⟨w.sources, rfl, rfl⟩
  · split
    · exact ⟨_, List.length_set, rfl⟩
    · exact ⟨w.sources, rfl, rfl⟩

theorem Sound.editSource (h : w.Sound L) (k : Nat) (changes : List Change) (version : Int) :
    (w.editSource k changes version).2.Sound L := by
  obtain ⟨sources, hl, hw⟩ := editSource_frame w k changes version
  rw [hw]
  exact { h with source := fun n f hf => by simpa only [hl] using h.source n f hf }

theorem document?_editSource {n : Nat} {d : Document} (hd : w.document? n = some d) (k : Nat)
    (changes : List Change) (version : Int) :
    ∃ s, (w.editSource k changes version).2.document? n = some { d with source := s } := by
  obtain ⟨f, hf, hs, hc⟩ := document?_eq_some.1 hd
  obtain ⟨hlt, -⟩ := List.getElem?_eq_some_iff.1 hs
  obtain ⟨sources, hl, hw⟩ := editSource_frame w k changes version
  have hlt' : f.source < sources.length := by omega
  rw [hw]
  exact ⟨sources[f.source], document?_eq_some.2 ⟨f, hf, List.getElem?_eq_getElem hlt', hc⟩⟩

theorem Sound.exists_owner (h : w.Sound L) {x : Handle} (hx : (L x.owner).docs x.doc) :
    ∃ f, w.composites[x.owner]? = some f := by
  cases hf : w.composites[x.owner]? with
  | none => rw [h.unmade _ hf] at hx; exact absurd hx id
  | some f => exact ⟨f, rfl⟩

theorem entryOf_eq {n : Nat} {d : Document} (ha : w.isAlive n = true)
    (hd : w.document? n = some d) (b : BlockDocument) :
    w.entryOf ⟨n, b⟩ = b.current (some d.composite.outline) := by
  obtain ⟨f, hf, -, hc⟩ := document?_eq_some.1 hd
  simp only [Workspace.entryOf, ha, if_true, hf, Option.map_some, hc]

theorem Sound.entryOf (h : w.Sound L) {x : Handle} (hx : (L x.owner).docs x.doc) :
    (L x.owner).entries (w.entryOf x) := by
  obtain ⟨f, hf⟩ := h.exists_owner hx
  have hc := h.covers _ f hf
  unfold Workspace.entryOf BlockDocument.current
  split
  · simp only [hf, Option.map_some, Option.bind_some]
    cases hg : f.composite.outline.get? x.doc.slot with
    | none => exact hc.initial _ hx
    | some e => exact hc.outline e (mem_entries_of_get? hg)
  · exact hc.initial _ hx

/-- What is shown is what would be generated now. -/
theorem Sound.look_eq (h : w.Sound L) {x : Handle} (hx : (L x.owner).docs x.doc) :
    (w.look x).1 = View.ofBlock x.doc (w.entryOf x).block := by
  unfold Workspace.look
  cases hk : w.kept.lookup x.number with
  | none => rfl
  | some k =>
    by_cases hs : k.stamp = (w.entryOf x).stamp
    · simp only [hs, if_true]
      have hm : (x.number, k) ∈ w.kept := by
        obtain ⟨l₁, l₂, hl, -⟩ := List.lookup_eq_some_iff.1 hk
        simp [hl]
      obtain ⟨d, e, hd, hser, he, hst, hg⟩ := h.kept _ hm
      obtain ⟨f, hf⟩ := h.exists_owner hx
      have hc := h.covers _ f hf
      have hdoc : d = x.doc := hc.oneDoc d x.doc hd hx hser
      have hent : e = w.entryOf x := hc.oneEntry e _ he (h.entryOf hx) (hst.trans hs)
      simp only [View.ofBlock, View.mk.injEq, true_and]
      rw [hg, hdoc, hent]
    · simp only [hs, if_false]
      rfl

theorem look_frame (w : Workspace) (x : Handle) : ∃ kept, (w.look x).2 = { w with kept } := by
  simp only [Workspace.look]
  split
  · split
    · exact ⟨w.kept, rfl⟩
    · exact ⟨_, rfl⟩
  · exact ⟨_, rfl⟩

theorem Sound.look (h : w.Sound L) {x : Handle} (hx : (L x.owner).docs x.doc) :
    (w.look x).2.Sound L := by
  have new : Sound { w with
      kept := (x.number, ⟨(w.entryOf x).stamp, x.doc.generate (w.entryOf x).block⟩) ::
        w.kept.filter fun y => y.1 ≠ x.number } L := by
    refine { h with kept := fun y hy => ?_ }
    rcases List.mem_cons.1 hy with rfl | hy
    · exact ⟨x.doc, w.entryOf x, hx, rfl, h.entryOf hx, rfl, rfl⟩
    · exact h.kept y (List.mem_filter.1 hy).1
  simp only [Workspace.look]
  split
  · split
    · exact h
    · exact new
  · exact new

@[simp] theorem options_withDocument {α : Type} (w : Workspace) (n : Nat)
    (f : Options → Document → α × Document) : (w.withDocument n f).2.options = w.options := by
  unfold Workspace.withDocument
  split
  · exact options_put w n _
  · rfl

@[simp] theorem options_withOpen {α : Type} (w : Workspace) (file : String)
    (f : Options → Document → α × Document) : (w.withOpen file f).2.options = w.options := by
  unfold Workspace.withOpen
  split
  · exact options_withDocument w _ f
  · rfl

@[simp] theorem options_documentById (w : Workspace) (file name : String) :
    (w.documentById file name).2.options = w.options := by
  unfold Workspace.documentById
  split
  · rfl
  · exact options_withDocument w _ _

@[simp] theorem options_look (w : Workspace) (x : Handle) : (w.look x).2.options = w.options := by
  obtain ⟨kept, h⟩ := look_frame w x
  rw [h]

@[simp] theorem options_editSource (w : Workspace) (k : Nat) (changes : List Change) (version : Int) :
    (w.editSource k changes version).2.options = w.options := by
  obtain ⟨sources, -, h⟩ := editSource_frame w k changes version
  rw [h]

@[simp] theorem options_openSource (w : Workspace) (file : String) (source : Nat) :
    (w.openSource file source).2.options = w.options := by
  unfold Workspace.openSource
  split <;> rfl

@[simp] theorem options_openText (w : Workspace) (file text : String) (version : Int) :
    (w.openText file text version).2.options = w.options := by
  unfold Workspace.openText
  split
  · rfl
  · exact options_openSource _ file _

end BlockLens.Workspace
