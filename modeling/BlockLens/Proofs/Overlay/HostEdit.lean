import BlockLens.Document.Defaults
import BlockLens.Proofs.Overlay.Announce
/-!
Who hears of an edit. One who watches a block is told its new text once if the block document was
given up, or if there was none, except under a name that an earlier name of the same block
forestalls. Of the other blocks nobody is told.
-/

set_option autoImplicit false

namespace BlockLens

namespace Composite

variable {o : Options} {c : Composite}

theorem hasDocument_of_refresh {text name : String} (h : (c.refresh o text).hasDocument name = true) :
    c.hasDocument name = true := by
  obtain ⟨b, hb, hkey⟩ := hasDocument_iff.1 h
  refine hasDocument_iff.2 ⟨b, ?_, hkey⟩
  rcases refresh_cases o text c with ⟨-, hr⟩ | ⟨-, -, hr⟩ | ⟨-, -, hr⟩ <;> rw [hr] at hb
  · exact hb
  · exact hb
  · exact (sublist_live_reparse text c).mem hb

theorem mem_evicted_reparse {text name : String} :
    name ∈ (c.reparse o text).evicted ↔ name ∈ c.evicted ∨
      c.hasDocument name = true ∧ (c.reparse o text).hasDocument name = false := by
  simp only [← Bool.not_eq_true, hasDocument_iff, reparse, List.mem_append, mem_evicted, mem_evict]
  refine or_congr_right ⟨fun h => ⟨h.2, ?_⟩, fun h => ⟨?_, h.1⟩⟩
  · rintro ⟨b, ⟨-, hb⟩, rfl⟩
    exact hb h.1
  · obtain ⟨⟨d, hd, rfl⟩, hno⟩ := h
    exact Classical.not_not.1 fun hk => hno ⟨d, ⟨hd, hk⟩, rfl⟩

theorem mem_evicted_refresh {text name : String} :
    name ∈ (c.refresh o text).evicted ↔ name ∈ c.evicted ∨
      c.hasDocument name = true ∧ (c.refresh o text).hasDocument name = false := by
  have hkeep : ∀ b, name ∈ ({ c with dirty := b } : Composite).evicted ↔ name ∈ c.evicted ∨
      c.hasDocument name = true ∧ ({ c with dirty := b } : Composite).hasDocument name = false := by
    intro b
    have hsame : ({ c with dirty := b } : Composite).hasDocument name = c.hasDocument name := rfl
    rw [hsame]
    cases c.hasDocument name <;> simp
  rcases refresh_cases o text c with ⟨-, hr⟩ | ⟨-, -, hr⟩ | ⟨-, -, hr⟩ <;> rw [hr]
  · exact hkeep c.dirty
  · exact hkeep false
  · exact mem_evicted_reparse

/-- Those who watch `name` are owed its text: the name was given up before the edit and nobody has
asked since, or there was no document under it, or the edit left none. -/
def Due (before after : Composite) (name : String) : Prop :=
  name ∈ before.evicted ∨ before.hasDocument name = false ∨ after.hasDocument name = false

/-- The name is new, and a name before it that is due leads to it. When the turn of `name` comes, its
document has been made for the other name. -/
def Forestalled (o : Options) (before after : Composite) (watched : List String) (name : String) :
    Prop :=
  name ∉ before.evicted ∧ before.hasDocument name = false ∧
    ∃ earlier ∈ watched, earlier < name ∧ after.Leads o earlier name ∧ Due before after earlier

end Composite

theorem not_madeFrom_self (file : String) : ¬ MadeFrom file file := by
  rintro (hk | ⟨i, hk, hi⟩)
  · obtain ⟨-, -, hname⟩ := FileKind.classify_eq_main hk
    have hlen := congrArg (·.toList.length) hname
    simp [mainModuleName] at hlen
  · obtain ⟨hv, -, htext⟩ := Identifier.parse_eq_ok (FileKind.parse_of_classify hk)
    have hlen := congrArg (fun s => s.toList.length) (htext.trans hi.symm)
    simp [Identifier.toList_text, Identifier.marker] at hlen

theorem Workspace.document?_put_ne {w : Workspace} {n m : Nat} {d e : Document} (hnm : n ≠ m)
    (hd : w.document? n = some d) (hm : w.document? m = some e) (e' : Document) :
    ∃ s, (w.put m e').document? n = some { d with source := s } := by
  obtain ⟨f, hf, hs, hc⟩ := document?_eq_some.1 hd
  obtain ⟨g, hg, -, -⟩ := document?_eq_some.1 hm
  obtain ⟨hlt, -⟩ := List.getElem?_eq_some_iff.1 hs
  have hlt' : f.source < (w.sources.set g.source e'.source).length := by rwa [List.length_set]
  rw [put_eq hg]
  refine ⟨(w.sources.set g.source e'.source)[f.source], document?_eq_some.2 ⟨f, ?_, ?_, hc⟩⟩
  · rwa [List.getElem?_set_ne (Ne.symm hnm)]
  · exact List.getElem?_eq_getElem hlt'

namespace Overlay

structure Marks (ov ov' : Overlay) : Prop where
  watchers : ov'.watchers = ov.watchers
  options : ov'.workspace.options = ov.workspace.options
  opened : ov'.workspace.opened = ov.workspace.opened
  document : ∀ n d, ov.workspace.document? n = some d →
    ∃ s b, ov'.workspace.document? n = some ⟨s, { d.composite with dirty := b }⟩

theorem Marks.refl (ov : Overlay) : Marks ov ov := ⟨rfl, rfl, rfl, fun _ d hd => ⟨d.source, _, hd⟩⟩

theorem Marks.trans {a b c : Overlay} (h : Marks a b) (h' : Marks b c) : Marks a c where
  watchers := h'.watchers.trans h.watchers
  options := h'.options.trans h.options
  opened := h'.opened.trans h.opened
  document n d hd := by
    obtain ⟨s, x, hb⟩ := h.document n d hd
    obtain ⟨t, y, hc⟩ := h'.document n _ hb
    exact ⟨t, y, hc⟩

theorem Marks.get? {ov ov' : Overlay} (h : Marks ov ov') (file : String) :
    ov'.workspace.get? file = ov.workspace.get? file := by
  unfold Workspace.get?
  rw [h.opened]

theorem marks_deliver (changes : List Change) (version : Int) (ov : Overlay)
    (s : Subscription Listener) : Marks ov (deliver changes version ov s).2 := by
  unfold deliver
  split
  · exact .refl ov
  · next m _ =>
    split
    · simp only [withWorkspace, Workspace.withDocument]
      split
      · next e he =>
        obtain ⟨f, hf, -, -⟩ := Workspace.document?_eq_some.1 he
        refine ⟨rfl, Workspace.options_put _ _ _, by rw [Workspace.put_eq hf], fun n d hd => ?_⟩
        by_cases hn : n = m
        · subst hn
          rw [hd, Option.some.injEq] at he
          subst he
          refine ⟨(d.update changes version).2.source, (d.update changes version).2.composite.dirty, ?_⟩
          rw [Workspace.document?_put_self hd _]
          simp only [Document.update]
          split <;> rfl
        · obtain ⟨s, hs⟩ := Workspace.document?_put_ne hn hd he _
          exact ⟨s, d.composite.dirty, hs⟩
      · exact .refl ov
    · exact .refl ov

theorem marks_deliverAll (changes : List Change) (version : Int)
    (subs : List (Subscription Listener)) (ov : Overlay) :
    Marks ov (deliverAll changes version subs ov).2 := by
  induction subs generalizing ov with
  | nil => exact .refl ov
  | cons s subs ih => exact (marks_deliver changes version ov s).trans (ih _)

theorem of_mem_deliverAll {changes : List Change} {version : Int}
    {subs : List (Subscription Listener)} {ov : Overlay} {y : Delivery}
    (h : y ∈ (deliverAll changes version subs ov).1) : ∃ t ∈ subs, y = ⟨t.id, changes, version⟩ := by
  induction subs generalizing ov with
  | nil => simp [deliverAll] at h
  | cons s subs ih =>
    rcases List.mem_append.1 h with h | h
    · refine ⟨s, List.mem_cons_self, ?_⟩
      unfold deliver at h
      split at h
      · exact List.mem_singleton.1 h
      · split at h <;> simp at h
    · obtain ⟨t, ht, hy⟩ := ih h
      exact ⟨t, List.mem_cons_of_mem _ ht, hy⟩

theorem marks_notify (ov : Overlay) (file : String) (changes : List Change) (version : Int) :
    Marks ov (ov.notify file changes version).overlay := marks_deliverAll changes version _ ov

theorem of_mem_notify {ov : Overlay} {file : String} {changes : List Change} {version : Int}
    {y : Delivery} (h : y ∈ (ov.notify file changes version).deliveries) :
    ∃ t ∈ ov.watchers.live, t.file ∈ [file] ∧ y.subscription = t.id := by
  obtain ⟨t, ht, rfl⟩ := of_mem_deliverAll h
  obtain ⟨hlive, hfile⟩ := Watchers.mem_forFile.1 ht
  exact ⟨t, hlive, List.mem_singleton.2 hfile, rfl⟩

theorem hostEdit_eq {ov : Overlay} {file : String} {n : Nat} (hn : ov.workspace.get? file = some n)
    {changes : List Change} {version : Int} {d : Document}
    (hd : (ov.notify file changes version).overlay.workspace.document? n = some d) (host : Host) :
    let first := ov.notify file changes version
    let o := ov.workspace.options
    let ov' : Overlay := { first.overlay with
      workspace := first.overlay.workspace.put n (d.drainEvicted o).2 }
    let m := announce host file (d.refresh o).composite.evicted version ov.watchers.files ov'
    ov.hostEdit host file changes version =
      ⟨first.count + m.count, first.deliveries ++ m.deliveries, m.overlay⟩ := by
  intro first o ov' m
  have hmarks := marks_notify ov file changes version
  have hopen : first.overlay.workspace.get? file = some n := (hmarks.get? file).trans hn
  have hoptions : first.overlay.workspace.options = o := hmarks.options
  have hwatchers : ov'.watchers = ov.watchers := hmarks.watchers
  have hdrain : first.overlay.withWorkspace (·.withOpen file fun o d => d.drainEvicted o) =
      (some (d.refresh o).composite.evicted, ov') := by
    simp only [withWorkspace, Workspace.withOpen, hopen, Workspace.withDocument, hd, hoptions, first]
    rfl
  simp only [hostEdit, first] at hdrain ⊢
  rw [hdrain]
  simp only [hwatchers]
  rfl

/-- The round that follows an edit starts from the parse of the edited text. -/
theorem Sound.settled {ov : Overlay} {L : Nat → Ledger} (h : ov.Sound L) {file : String} {n : Nat}
    (hn : ov.workspace.get? file = some n)
    (hc : ∀ s ∈ ov.watchers.live, MadeFrom file s.file → s.listener = .client)
    {changes : List Change} {version : Int} {d : Document}
    (hd : (ov.notify file changes version).overlay.workspace.document? n = some d) :
    let first := (ov.notify file changes version).overlay
    let o := ov.workspace.options
    ∃ R : Round, R.options = o ∧ R.watchers = ov.watchers ∧ R.file = file ∧
      R.document = (d.drainEvicted o).2 ∧
      R.Settled (d.refresh o).composite.live
        { first with workspace := first.workspace.put n (d.drainEvicted o).2 } := by
  intro first o
  have hmarks := marks_notify ov file changes version
  have hopen : first.workspace.get? file = some n := (hmarks.get? file).trans hn
  obtain ⟨L₁, -, hs₁⟩ := h.notify file changes version
  obtain ⟨e, he, hfile, -⟩ := hs₁.1.file_of_get? hopen
  rw [hd, Option.some.injEq] at he
  subst he
  obtain ⟨L₂, -, hs₂, -⟩ := hs₁.1.put_run hd .drainEvicted
  have hoptions : (ov.notify file changes version).overlay.workspace.options = o := hmarks.options
  simp only [hoptions] at hs₂
  refine ⟨⟨o, ov.watchers, file, n, (d.drainEvicted o).2, ?_, ?_, hc⟩, rfl, rfl, rfl, rfl, ?_⟩
  · exact Composite.dirty_refresh _ _
  · exact (Composite.file_refresh _ _).trans hfile
  · refine ⟨?_, hmarks.watchers, ⟨L₂, hs₂, hs₁.2⟩, ?_, (d.refresh o).composite.created, ?_⟩
    · exact (Workspace.options_put _ _ _).trans hmarks.options
    · exact (Workspace.get?_put _ _ _ _).trans hopen
    · exact Workspace.document?_put_self hd _

/-- Who is told in the round, in terms of the documents before and after the edit. -/
theorem told_iff {o : Options} {before : Composite} {b : Bool} {text : String} {R : Round}
    (name : String) :
    let after := ({ before with dirty := b } : Composite).refresh o text
    R.options = o → R.document.composite = { after with evicted := [] } →
      ((name ∈ after.evicted ∨ (¬ ∃ d ∈ after.live, d.key = name) ∧
          ¬ R.Forestalled after.evicted after.live name) ↔
        before.Due after name ∧ ¬ before.Forestalled o after R.watchers.files name) := by
  intro after ho hdoc
  have hgone : ∀ x, (¬ ∃ d ∈ after.live, d.key = x) ↔ after.hasDocument x = false := fun x => by
    rw [← Composite.hasDocument_iff, Bool.not_eq_true]
  have hlog : ∀ x, x ∈ after.evicted ↔
      x ∈ before.evicted ∨ before.hasDocument x = true ∧ after.hasDocument x = false :=
    fun x => Composite.mem_evicted_refresh
  have hnew : ∀ x, before.hasDocument x = false → after.hasDocument x = false := by
    intro x hx
    rw [← Bool.not_eq_true] at hx ⊢
    intro ha
    have hb : ({ before with dirty := b } : Composite).hasDocument x = true :=
      Composite.hasDocument_of_refresh ha
    exact hx hb
  have hdue : ∀ x, Round.Stale after.evicted after.live x ↔ before.Due after x := by
    intro x
    rw [Round.Stale, hgone, hlog, Composite.Due]
    have := hnew x
    grind
  have hleads : ∀ x, R.document.composite.Leads R.options x name ↔ after.Leads o x name := by
    intro x
    rw [ho, hdoc]
    exact Iff.rfl
  simp only [Round.Forestalled, hleads, hdue, hgone, hlog, Composite.Forestalled]
  have := hnew name
  simp only [Composite.Due]
  grind

theorem Sound.filter_hostEdit {ov : Overlay} {L : Nat → Ledger} (h : ov.Sound L) {file : String}
    {n : Nat} (hn : ov.workspace.get? file = some n)
    (hc : ∀ s ∈ ov.watchers.live, MadeFrom file s.file → s.listener = .client) (host : Host)
    {changes : List Change} {version : Int} {before : Composite} {t : Source} {b : Bool}
    (hd : (ov.notify file changes version).overlay.workspace.document? n =
      some ⟨t, { before with dirty := b }⟩)
    {s : Subscription Listener} (hs : s ∈ ov.watchers.live) {i : Identifier}
    (hk : FileKind.classify s.file = .block i) (hi : i.file = file) :
    let r := ov.hostEdit host file changes version
    let o := ov.workspace.options
    let after := ({ before with dirty := b } : Composite).refresh o t.text
    let told := before.Due after s.file ∧ ¬ before.Forestalled o after ov.watchers.files s.file
    (told → r.deliveries.filter (·.subscription = s.id) =
      ((r.overlay.read host s.file).1.map fun text => ⟨s.id, [⟨none, text⟩], version⟩).toList) ∧
      (¬ told → r.deliveries.filter (·.subscription = s.id) = []) := by
  intro r o after told
  obtain ⟨R, ho, hw, hf, hdoc, hset⟩ := h.settled hn hc hd
  have hround := hset.round (hw ▸ h.2) host after.evicted version (hw ▸ hs) hk (hi.trans hf.symm)
  have htold : _ ↔ told := hw ▸ told_iff s.file ho (by rw [hdoc]; rfl)
  have hfirst : s.file ∉ [file] := by
    intro hm
    exact not_madeFrom_self file (.inr ⟨i, List.mem_singleton.1 hm ▸ hk, hi⟩)
  have hquiet : (ov.notify file changes version).deliveries.filter (·.subscription = s.id) = [] :=
    Round.filter_other h.2 hs (fun y hy => of_mem_notify hy) hfirst
  have hr : r = _ := hostEdit_eq hn hd host
  rw [hf, hw] at hround
  dsimp only at hround
  rw [hr]
  dsimp only
  rw [List.filter_append, hquiet, List.nil_append, ← htold]
  exact hround

end Overlay

namespace HandedOverlay

/-- In every state that commands lead to, and for every edit of an open file: one who watches a block
hears once, and hears what the block is then read as, if the name is due and not forestalled, and
hears nothing otherwise. Those who watch what is made from the file take no other part. -/
theorem deliveries_hostEdit (o : Options) (commands : List Command) (host : Host) (file : String)
    (changes : List Change) (version : Int) (n : Nat) :
    let ov := ((start o).run commands).overlay
    let r := ov.hostEdit host file changes version
    ov.workspace.get? file = some n →
    (∀ s ∈ ov.watchers.live, MadeFrom file s.file → s.listener = .client) →
    ∃ before edited, ov.workspace.document? n = some before ∧
      (ov.notify file changes version).overlay.workspace.document? n = some edited ∧
      ∀ s ∈ ov.watchers.live, ∀ i, FileKind.classify s.file = .block i → i.file = file →
        let after := (edited.refresh ov.workspace.options).composite
        let told := before.composite.Due after s.file ∧
          ¬ before.composite.Forestalled ov.workspace.options after ov.watchers.files s.file
        (told → r.deliveries.filter (·.subscription = s.id) =
          ((r.overlay.read host s.file).1.map fun text => ⟨s.id, [⟨none, text⟩], version⟩).toList) ∧
          (¬ told → r.deliveries.filter (·.subscription = s.id) = []) := by
  intro ov r hopen hclients
  obtain ⟨L, hsound, -⟩ := (sound_start o).run commands
  obtain ⟨before, hbefore, -, -⟩ := hsound.1.file_of_get? hopen
  obtain ⟨t, b, hedited⟩ := (Overlay.marks_notify ov file changes version).document n before hbefore
  refine ⟨before, _, hbefore, hedited, fun s hs i hk hi => ?_⟩
  exact hsound.filter_hostEdit hopen hclients host hedited hs hk hi

def watchedTwice : Overlay :=
  ((start .default).run [.openText "/src/Foo.vue" "x" 1,
    .watch "/src/Foo.vue?vue&type=script&lang.js",
    .watch "/src/Foo.vue?vue&type=script&lang.ts"]).overlay

/-- The older name comes first, so that the other is forestalled: nobody who watches it hears of the
edit, though it had no document before and has a text after. -/
theorem deliveries_hostEdit_watchedTwice :
    let host : Host := ⟨fun _ => false, fun _ => .error []⟩
    let r := watchedTwice.hostEdit host "/src/Foo.vue" [⟨none, ""⟩] 2
    watchedTwice.workspace.get? "/src/Foo.vue" = some 0 ∧
      (∀ s ∈ watchedTwice.watchers.live, MadeFrom "/src/Foo.vue" s.file → s.listener = .client) ∧
      (∃ before, watchedTwice.workspace.document? 0 = some before ∧
        before.composite.hasDocument "/src/Foo.vue?vue&type=script&lang.ts" = false) ∧
      (r.overlay.read host "/src/Foo.vue?vue&type=script&lang.ts").1.isSome = true ∧
      r.deliveries.filter (·.subscription = 2) = [] := by
  intro host r
  have hopen : watchedTwice.workspace.get? "/src/Foo.vue" = some 0 := rfl
  have hlive : watchedTwice.watchers.live = [⟨0, "/src/Foo.vue", .composite 0⟩,
      ⟨1, "/src/Foo.vue?vue&type=script&lang.js", .client⟩,
      ⟨2, "/src/Foo.vue?vue&type=script&lang.ts", .client⟩] := rfl
  have hclients : ∀ s ∈ watchedTwice.watchers.live, MadeFrom "/src/Foo.vue" s.file →
      s.listener = .client := by
    intro s hs hm
    simp only [hlive, List.mem_cons, List.not_mem_nil, or_false] at hs
    rcases hs with rfl | rfl | rfl
    · exact absurd hm (not_madeFrom_self _)
    · rfl
    · rfl
  have hd : (watchedTwice.notify "/src/Foo.vue" [⟨none, ""⟩] 2).overlay.workspace.document? 0 =
      some ⟨⟨"", 2⟩, { file := "/src/Foo.vue" }⟩ := rfl
  have hparser : Options.default.parser "" = {} := by
    simp [Options.default, Markup.split, Markup.splitAt]
  -- the same parse by a parser that can be evaluated
  have hrefresh : Document.refresh .default ⟨⟨"", 2⟩, { file := "/src/Foo.vue" }⟩ =
      Document.refresh { Options.default with parser := fun _ => {} }
        ⟨⟨"", 2⟩, { file := "/src/Foo.vue" }⟩ := by
    simp only [Document.refresh, Composite.refresh, Composite.reparse, hparser]
    rfl
  refine ⟨hopen, hclients, ⟨_, rfl, rfl⟩, ?_, ?_⟩
  · have hfiles : watchedTwice.watchers.files = ["/src/Foo.vue",
        "/src/Foo.vue?vue&type=script&lang.js", "/src/Foo.vue?vue&type=script&lang.ts"] := by
      rw [Watchers.files, hlive, sortedSet, sortStrings, List.mergeSort_of_pairwise (by decide)]
      rfl
    have hr : r = _ := Overlay.hostEdit_eq hopen hd host
    have hoptions : watchedTwice.workspace.options = .default := rfl
    rw [hr, hfiles, hoptions]
    simp only [Document.drainEvicted, hrefresh]
    decide +kernel
  · obtain ⟨before, edited, hb, he, htold⟩ := deliveries_hostEdit .default _ host "/src/Foo.vue"
      [⟨none, ""⟩] 2 0 hopen hclients
    obtain rfl : _ = before := Option.some.inj hb
    obtain rfl : _ = edited := Option.some.inj (hd.symm.trans he)
    refine (htold ⟨2, "/src/Foo.vue?vue&type=script&lang.ts", .client⟩ (hlive ▸ by simp)
      ⟨"/src/Foo.vue", .script, none, false, "ts"⟩ rfl rfl).2 fun hno => hno.2 ?_
    refine ⟨List.not_mem_nil, rfl, "/src/Foo.vue?vue&type=script&lang.js", ?_, by decide, ?_,
      .inr (.inl rfl)⟩
    · exact Watchers.mem_files.2 ⟨⟨1, _, .client⟩, hlive ▸ by simp, rfl⟩
    · have hname : (Document.refresh .default
          ⟨⟨"", 2⟩, { file := "/src/Foo.vue" }⟩).composite.blockId? .default .script =
            some "/src/Foo.vue?vue&type=script&lang.ts" := by
        rw [hrefresh]
        rfl
      exact ⟨⟨"/src/Foo.vue", .script, none, false, "js"⟩, .script, rfl, rfl, rfl, hname⟩

end HandedOverlay

end BlockLens
