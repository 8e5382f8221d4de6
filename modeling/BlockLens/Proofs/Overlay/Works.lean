import BlockLens.Proofs.Overlay.HostEdit
import Mathlib.Data.List.Nodup
/-!
Which documents an operation of an overlay works on, and how. Reading works on the open document
behind a name and leaves its text alone; telling a subscription edits the composite behind it; all
other documents stay as they are.
-/

set_option autoImplicit false

namespace BlockLens

/-- Asks for something. The text is left alone; the parse may be brought up to date. -/
def Action.Quiet : Action → Prop
  | .update _ _ | .markDirty => False
  | _ => True

theorem Action.Quiet.source_run {a : Action} (h : a.Quiet) (o : Options) (d : Document) :
    (a.run o d).2.source = d.source := by
  cases a with
  | update | markDirty => exact h.elim
  | documentAt offset =>
    simp only [Action.run, Document.documentAt]
    split <;> rfl
  | documentById name =>
    simp only [Action.run, Document.documentById]
    split
    · rfl
    · split
      · rfl
      · split <;> rfl
  | _ => rfl

theorem Document.source_update (changes : List Change) (version : Int) (d : Document) :
    (d.update changes version).2.source = (d.source.edit changes version).toOption.getD d.source := by
  unfold Document.update
  split
  · next s hs => simp [hs, Except.toOption, Document.markDirty]
  · next e he => simp [he, Except.toOption]

/-- The text of an edit, or the text before it. -/
def Source.Takes (s : Source) (changes : List Change) (version : Int) (t : Source) : Prop :=
  t = s ∨ s.edit changes version = .ok t

theorem Document.source_update_of_version {d : Document} {version : Int}
    (h : d.source.version = version) (changes : List Change) :
    (d.update changes version).2.source = d.source := by
  rw [source_update, Source.edit, if_pos (by omega)]
  rfl

theorem Source.Takes.update {s : Source} {changes : List Change} {version : Int} {d : Document}
    (h : s.Takes changes version d.source) :
    s.Takes changes version (d.update changes version).2.source := by
  rcases h with rfl | h
  · rw [Document.source_update]
    cases he : d.source.edit changes version with
    | ok t => exact .inr he
    | error e => exact .inl rfl
  · rw [Document.source_update_of_version (version_of_edit h).2]
    exact .inr h

theorem Source.Takes.source_update {s t : Source} {changes : List Change} {version : Int}
    {d : Document} (h : s.Takes changes version d.source) (hok : s.edit changes version = .ok t) :
    (d.update changes version).2.source = t := by
  rcases h with hd | hd
  · rw [Document.source_update, hd, hok]
    rfl
  · rw [Document.source_update_of_version (version_of_edit hd).2]
    rw [hd] at hok
    exact Except.ok.inj hok

namespace Workspace

/-- `v` comes of `w` by actions on documents, each of which `T` allows, and by looks at block
documents. -/
inductive Works (T : Nat → Action → Prop) (w : Workspace) : Workspace → Prop where
  | refl : Works T w w
  | act {v : Workspace} {n : Nat} {d : Document} (h : Works T w v) (a : Action) (ht : T n a)
      (hd : v.document? n = some d) : Works T w (v.put n (a.run v.options d).2)
  | keep {v : Workspace} (h : Works T w v) (kept : List ((Nat × Nat) × Kept)) :
      Works T w { v with kept }

def Apart (w : Workspace) : Prop := (w.composites.map (·.source)).Nodup

namespace Works

variable {T : Nat → Action → Prop} {w v : Workspace}

theorem mono {T' : Nat → Action → Prop} (h : Works T w v) (ht : ∀ n a, T n a → T' n a) :
    Works T' w v := by
  induction h with
  | refl => exact .refl
  | act _ a hn hd ih => exact .act ih a (ht _ a hn) hd
  | keep _ kept ih => exact .keep ih kept

theorem trans {u : Workspace} (h : Works T w v) (h' : Works T v u) : Works T w u := by
  induction h' with
  | refl => exact h
  | act _ a hn hd ih => exact .act ih a hn hd
  | keep _ kept ih => exact .keep ih kept

theorem frame (h : Works T w v) :
    v.options = w.options ∧ v.opened = w.opened ∧ v.held = w.held ∧
      v.sources.length = w.sources.length ∧
      v.composites.map (·.source) = w.composites.map (·.source) := by
  induction h with
  | refl => exact ⟨rfl, rfl, rfl, rfl, rfl⟩
  | keep _ kept ih => exact ih
  | @act v n d _ a _ hd ih =>
    obtain ⟨f, hf, -, -⟩ := document?_eq_some.1 hd
    obtain ⟨hlt, he⟩ := List.getElem?_eq_some_iff.1 hf
    obtain ⟨ho, hopen, hheld, hlen, hsource⟩ := ih
    rw [put_eq hf]
    refine ⟨ho, hopen, hheld, List.length_set.trans hlen, Eq.trans ?_ hsource⟩
    rw [List.map_set]
    refine List.ext_getElem? fun i => ?_
    by_cases hi : n = i
    · subst hi
      simp [hlt, ← he]
    · simp [hi]

theorem get? (h : Works T w v) (file : String) : v.get? file = w.get? file := by
  unfold Workspace.get?
  rw [h.frame.2.1]

theorem isAlive (h : Works T w v) (n : Nat) : v.isAlive n = w.isAlive n := by
  unfold Workspace.isAlive
  rw [h.frame.2.1, h.frame.2.2.1]

theorem apart (h : Works T w v) (hw : w.Apart) : v.Apart := by
  unfold Workspace.Apart
  rw [h.frame.2.2.2.2]
  exact hw

theorem composites {P : Composite → Prop} (h : Works T w v)
    (k : Action.Keeps w.options fun d => P d.composite) (hw : ∀ f ∈ w.composites, P f.composite) :
    ∀ f ∈ v.composites, P f.composite := by
  induction h with
  | refl => exact hw
  | keep _ kept ih => exact ih
  | @act v n d h a _ hd ih =>
    obtain ⟨f, hf, -, hc⟩ := document?_eq_some.1 hd
    have hd : P d.composite := hc ▸ ih f (List.mem_of_getElem? hf)
    intro g hg
    rw [put_eq hf] at hg
    rcases List.mem_or_eq_of_mem_set hg with hg | rfl
    · exact ih g hg
    · rw [h.frame.1]
      exact k.run a hd

end Works

theorem document?_put_apart {w : Workspace} (hw : w.Apart) {n m : Nat} (hnm : m ≠ n)
    (d : Document) : (w.put n d).document? m = w.document? m := by
  cases hf : w.composites[n]? with
  | none => simp only [Workspace.put, hf]
  | some f =>
    rw [put_eq hf]
    simp only [Workspace.document?, List.getElem?_set_ne (Ne.symm hnm)]
    cases hg : w.composites[m]? with
    | none => rfl
    | some g =>
      have hsource : f.source ≠ g.source := by
        intro hfg
        have hn : (w.composites.map (·.source))[n]? = some f.source := by simp [hf]
        have hm : (w.composites.map (·.source))[m]? = some f.source := by simp [hg, hfg]
        obtain ⟨hlt, hn⟩ := List.getElem?_eq_some_iff.1 hn
        obtain ⟨hlt', hm⟩ := List.getElem?_eq_some_iff.1 hm
        exact hnm ((List.Nodup.getElem_inj_iff hw).1 (hm.trans hn.symm))
      simp only [Option.bind_some, List.getElem?_set_ne hsource]

/-- What the actions on a document keep holds of it. -/
theorem Works.document {T : Nat → Action → Prop} {w v : Workspace} (h : Works T w v) (hw : w.Apart)
    {m : Nat} {P : Document → Prop}
    (hP : ∀ a, T m a → ∀ d, P d → P (a.run w.options d).2) {d : Document}
    (hd : w.document? m = some d) (hpd : P d) : ∃ e, v.document? m = some e ∧ P e := by
  induction h with
  | refl => exact ⟨d, hd, hpd⟩
  | keep _ kept ih => exact ih
  | @act v n c h a ht hc ih =>
    obtain ⟨e, he, hpe⟩ := ih
    by_cases hnm : m = n
    · subst hnm
      rw [hc, Option.some.injEq] at he
      subst he
      refine ⟨_, document?_put_self hc _, ?_⟩
      rw [h.frame.1]
      exact hP a ht c hpe
    · exact ⟨e, by rw [document?_put_apart (h.apart hw) hnm, he], hpe⟩

/-- A document on which nothing may be done stays as it is. -/
theorem Works.document_eq {T : Nat → Action → Prop} {w v : Workspace} (h : Works T w v)
    (hw : w.Apart) {m : Nat} (hm : ∀ a, ¬ T m a) {d : Document} (hd : w.document? m = some d) :
    v.document? m = some d := by
  obtain ⟨e, he, rfl⟩ := h.document hw (P := fun e => e = d) (fun a ha => absurd ha (hm a)) hd rfl
  exact he

def textOf? (w : Workspace) (n : Nat) : Option Nat := w.composites[n]?.map (·.source)

theorem Works.textOf? {T : Nat → Action → Prop} {w v : Workspace} (h : Works T w v) (n : Nat) :
    v.textOf? n = w.textOf? n := by
  unfold Workspace.textOf?
  rw [← List.getElem?_map, ← List.getElem?_map, h.frame.2.2.2.2]

theorem exists_of_textOf? {w : Workspace} {n k : Nat} {s : Source} (hk : w.textOf? n = some k)
    (hs : w.sources[k]? = some s) : ∃ c, w.document? n = some ⟨s, c⟩ := by
  obtain ⟨f, hf, rfl⟩ := Option.map_eq_some_iff.1 hk
  exact ⟨f.composite, document?_eq_some.2 ⟨f, hf, hs, rfl⟩⟩

theorem textOf?_of_document? {w : Workspace} {n : Nat} {d : Document}
    (hd : w.document? n = some d) : ∃ k, w.textOf? n = some k ∧ w.sources[k]? = some d.source := by
  obtain ⟨f, hf, hs, -⟩ := document?_eq_some.1 hd
  exact ⟨f.source, by simp [Workspace.textOf?, hf], hs⟩

/-- What the actions on all composites over a text keep of it holds of the text. -/
theorem Works.source {T : Nat → Action → Prop} {w v : Workspace} (h : Works T w v) {k : Nat}
    {Q : Source → Prop}
    (hQ : ∀ n a, T n a → w.textOf? n = some k → ∀ d : Document, Q d.source →
      Q (a.run w.options d).2.source)
    {s : Source} (hs : w.sources[k]? = some s) (hq : Q s) : ∃ t, v.sources[k]? = some t ∧ Q t := by
  induction h with
  | refl => exact ⟨s, hs, hq⟩
  | keep _ kept ih => exact ih
  | @act v n c h a ht hc ih =>
    obtain ⟨t, hvt, hqt⟩ := ih
    obtain ⟨f, hf, hfs, -⟩ := document?_eq_some.1 hc
    rw [put_eq hf]
    by_cases hk : f.source = k
    · subst hk
      obtain rfl : t = c.source := Option.some.inj (hvt.symm.trans hfs)
      obtain ⟨hlt, -⟩ := List.getElem?_eq_some_iff.1 hfs
      have hn : w.textOf? n = some f.source := by
        rw [← h.textOf? n, Workspace.textOf?, hf, Option.map_some]
      refine ⟨(a.run v.options c).2.source, by simp [hlt], ?_⟩
      rw [h.frame.1]
      exact hQ n a ht hn c hqt
    · exact ⟨t, by simpa [hk] using hvt, hqt⟩

theorem Works.document_source {T : Nat → Action → Prop} {w v : Workspace} (h : Works T w v)
    {Q : Source → Prop} {m : Nat}
    (hQ : ∀ n a, T n a → w.textOf? n = w.textOf? m → ∀ d : Document, Q d.source →
      Q (a.run w.options d).2.source)
    {d : Document} (hd : w.document? m = some d) (hq : Q d.source) :
    ∃ e, v.document? m = some e ∧ Q e.source := by
  obtain ⟨k, hk, hs⟩ := textOf?_of_document? hd
  obtain ⟨t, ht, hqt⟩ := h.source (fun n a hn hnk => hQ n a hn (hnk.trans hk.symm)) hs hq
  obtain ⟨c, hc⟩ := exists_of_textOf? ((h.textOf? m).trans hk) ht
  exact ⟨_, hc, hqt⟩

theorem works_withDocument {α : Type} (w : Workspace) (n : Nat)
    (f : Options → Document → α × Document) {a : Action}
    (hf : ∀ d, (f w.options d).2 = (a.run w.options d).2) :
    w.Works (fun m b => m = n ∧ b = a) (w.withDocument n f).2 := by
  unfold Workspace.withDocument
  split
  · next d hd =>
    simp only [hf]
    exact .act .refl a ⟨rfl, rfl⟩ hd
  · exact .refl

theorem works_withOpen {α : Type} (w : Workspace) (file : String)
    (f : Options → Document → α × Document) {a : Action}
    (hf : ∀ d, (f w.options d).2 = (a.run w.options d).2) :
    w.Works (fun m b => w.get? file = some m ∧ b = a) (w.withOpen file f).2 := by
  unfold Workspace.withOpen
  split
  · next n hn =>
    refine (works_withDocument w n f hf).mono ?_
    rintro m b ⟨rfl, hb⟩
    exact ⟨hn, hb⟩
  · exact .refl

theorem works_documentById (w : Workspace) (file name : String) :
    w.Works (fun m b => w.get? file = some m ∧ b.Quiet) (w.documentById file name).2 := by
  unfold Workspace.documentById
  split
  · exact .refl
  · next n hn =>
    refine (works_withDocument w n (fun o d => d.documentById o name) (a := .documentById name)
      fun d => rfl).mono ?_
    rintro m b ⟨rfl, rfl⟩
    exact ⟨hn, trivial⟩

theorem works_look (T : Nat → Action → Prop) (w : Workspace) (h : Handle) : w.Works T (w.look h).2 := by
  obtain ⟨kept, hk⟩ := look_frame w h
  rw [hk]
  exact .keep .refl kept

end Workspace

theorem MadeFrom.realName {file name : String} (h : MadeFrom file name) :
    (FileKind.classify name).realName name = file := by
  rcases h with hk | ⟨i, hk, rfl⟩ <;> rw [hk] <;> rfl

namespace Overlay

structure Works (T : Nat → Action → Prop) (ov ov' : Overlay) : Prop where
  workspace : ov.workspace.Works T ov'.workspace
  watchers : ov'.watchers = ov.watchers
  forwarding : ov'.forwarding = ov.forwarding

variable {T : Nat → Action → Prop} {ov ov' : Overlay}

theorem Works.refl (T : Nat → Action → Prop) (ov : Overlay) : Works T ov ov := ⟨.refl, rfl, rfl⟩

theorem Works.mono {T' : Nat → Action → Prop} (h : Works T ov ov') (ht : ∀ n a, T n a → T' n a) :
    Works T' ov ov' := ⟨h.workspace.mono ht, h.watchers, h.forwarding⟩

theorem Works.trans {ov'' : Overlay} (h : Works T ov ov') (h' : Works T ov' ov'') : Works T ov ov'' :=
  ⟨h.workspace.trans h'.workspace, h'.watchers.trans h.watchers, h'.forwarding.trans h.forwarding⟩

def Reads (ov : Overlay) (file : String) (n : Nat) (a : Action) : Prop :=
  ov.workspace.get? file = some n ∧ a.Quiet

theorem works_readBlock (w : Workspace) (file name : String) :
    w.Works (fun m b => w.get? file = some m ∧ b.Quiet) (readBlock file name w).2 := by
  have h := Workspace.works_documentById w file name
  unfold readBlock
  split
  · next x v hx =>
    rw [hx] at h
    exact h.trans (Workspace.works_look _ v x)
  · next v hx => rwa [hx] at h
  · next e v hx => rwa [hx] at h

theorem works_read (ov : Overlay) (host : Host) (name : String) :
    Works (ov.Reads ((FileKind.classify name).realName name)) ov (ov.read host name).2 := by
  unfold Overlay.read
  split
  · next i hk =>
    rw [hk]
    exact ⟨works_readBlock _ _ _, rfl, rfl⟩
  · next file hk =>
    rw [hk]
    refine ⟨(Workspace.works_withOpen ov.workspace file readMain (a := .mainModule)
      fun d => rfl).mono ?_, rfl, rfl⟩
    rintro n a ⟨hn, rfl⟩
    exact ⟨hn, trivial⟩
  · split
    · next hk _ =>
      -- the text is taken and the document put back as it was
      have hsame : (ov.workspace.withOpen name fun _ d => (d.source.text, d)).2 = ov.workspace := by
        unfold Workspace.withOpen Workspace.withDocument
        split
        · split
          · next d hd => exact Workspace.put_self hd
          · rfl
        · rfl
      refine ⟨?_, rfl, rfl⟩
      simp only [withWorkspace, hsame]
      exact .refl
    · exact .refl _ _
  · exact .refl _ _

theorem works_fileExists (ov : Overlay) (host : Host) (name : String) :
    Works (ov.Reads ((FileKind.classify name).realName name)) ov (ov.fileExists host name).2 := by
  unfold Overlay.fileExists
  split
  · next i hk =>
    rw [hk]
    exact ⟨Workspace.works_documentById _ _ _, rfl, rfl⟩
  · exact .refl _ _
  · exact .refl _ _
  · exact .refl _ _

theorem Works.reads (h : Works T ov ov') (file : String) : ov'.Reads file = ov.Reads file := by
  funext n a
  simp only [Reads, h.workspace.get?]

/-! ### Edits -/

def Edits (subs : List (Subscription Listener)) (changes : List Change) (version : Int) (n : Nat)
    (a : Action) : Prop :=
  (∃ s ∈ subs, s.listener = .composite n) ∧ a = .update changes version

theorem works_deliver (changes : List Change) (version : Int) (ov : Overlay)
    (s : Subscription Listener) :
    Works (Edits [s] changes version) ov (deliver changes version ov s).2 := by
  unfold deliver
  split
  · exact .refl _ _
  · next n hn =>
    split
    · refine ⟨(Workspace.works_withDocument ov.workspace n (fun _ d => d.update changes version)
        (a := .update changes version) fun d => rfl).mono ?_, rfl, rfl⟩
      rintro m a ⟨rfl, ha⟩
      exact ⟨⟨s, List.mem_singleton_self s, hn⟩, ha⟩
    · exact .refl _ _

theorem works_deliverAll (changes : List Change) (version : Int)
    (subs : List (Subscription Listener)) (ov : Overlay) :
    Works (Edits subs changes version) ov (deliverAll changes version subs ov).2 := by
  induction subs generalizing ov with
  | nil => exact .refl _ _
  | cons s subs ih =>
    refine ((works_deliver changes version ov s).mono ?_).trans ((ih _).mono ?_)
    · rintro n a ⟨⟨t, ht, hn⟩, ha⟩
      exact ⟨⟨t, List.mem_cons.2 (.inl (List.mem_singleton.1 ht)), hn⟩, ha⟩
    · rintro n a ⟨⟨t, ht, hn⟩, ha⟩
      exact ⟨⟨t, List.mem_cons_of_mem _ ht, hn⟩, ha⟩

theorem works_notify (ov : Overlay) (file : String) (changes : List Change) (version : Int) :
    Works (Edits (ov.watchers.forFile file) changes version) ov
      (ov.notify file changes version).overlay := works_deliverAll changes version _ ov

theorem works_needsNews (ov : Overlay) (file : String) (evicted : List String) (name : String) :
    Works (ov.Reads file) ov (ov.needsNews file evicted name).2 := by
  unfold Overlay.needsNews
  split
  · exact .refl _ _
  · split
    · split
      · exact .refl _ _
      · refine ⟨(Workspace.works_withOpen ov.workspace file (fun o d => d.hasDocument o name)
          (a := .hasDocument name) fun d => rfl).mono ?_, rfl, rfl⟩
        rintro n a ⟨hn, rfl⟩
        exact ⟨hn, trivial⟩
    · exact .refl _ _
  · exact .refl _ _
  · exact .refl _ _

/-- What is done for a name that is made from a file: the file is read, and who watches the name is
sent a text. -/
def News (ov : Overlay) (file name : String) (version : Int) (n : Nat) (a : Action) : Prop :=
  ov.Reads file n a ∨
    MadeFrom file name ∧ ∃ text, Edits (ov.watchers.forFile name) [⟨none, text⟩] version n a

theorem Works.news (h : Works T ov ov') (file name : String) (version : Int) :
    ov'.News file name version = ov.News file name version := by
  funext n a
  simp only [News, h.reads, h.watchers]

theorem works_lookup (ov : Overlay) (host : Host) (file : String) (evicted : List String)
    {name : String} (hm : MadeFrom file name) :
    let p := ov.needsNews file evicted name
    Works (ov.Reads file) ov (if p.1 then read host name p.2 else (none, p.2)).2 := by
  intro p
  have hnews : Works (ov.Reads file) ov p.2 := works_needsNews ov file evicted name
  split
  · have hread := works_read p.2 host name
    rw [hm.realName, hnews.reads] at hread
    exact hnews.trans hread
  · exact hnews

theorem works_tell (ov : Overlay) (host : Host) (file : String) (evicted : List String)
    (version : Int) (name : String) :
    Works (ov.News file name version) ov (tell host file evicted version name ov).overlay := by
  by_cases hm : MadeFrom file name
  case neg =>
    rw [Round.tell_of_not_madeFrom host evicted version hm]
    exact .refl _ _
  have hlookup := works_lookup ov host file evicted hm
  have hread : Works (ov.News file name version) ov _ := hlookup.mono fun n a h => .inl h
  simp only [tell]
  split
  · next text _ =>
    refine hread.trans ((works_notify _ name [⟨none, text⟩] version).mono fun n a h => ?_)
    rw [hlookup.watchers] at h
    exact .inr ⟨hm, text, h⟩
  · exact hread

theorem works_announce (host : Host) (file : String) (evicted : List String) (version : Int)
    (names : List String) (ov : Overlay) :
    Works (fun n a => ∃ name ∈ names, ov.News file name version n a) ov
      (announce host file evicted version names ov).overlay := by
  induction names generalizing ov with
  | nil => exact .refl _ _
  | cons name names ih =>
    have htell := works_tell ov host file evicted version name
    have hrest := ih (tell host file evicted version name ov).overlay
    simp only [htell.news] at hrest
    rw [announce_cons]
    refine (htell.mono fun n a h => ⟨name, List.mem_cons_self, h⟩).trans (hrest.mono ?_)
    rintro n a ⟨other, hother, h⟩
    exact ⟨other, List.mem_cons_of_mem _ hother, h⟩

theorem works_drainEvicted (ov : Overlay) (file : String) :
    Works (ov.Reads file) ov (ov.withWorkspace (·.withOpen file fun o d => d.drainEvicted o)).2 := by
  refine ⟨(Workspace.works_withOpen ov.workspace file (fun o d => d.drainEvicted o)
    (a := .drainEvicted) fun d => rfl).mono ?_, rfl, rfl⟩
  rintro n a ⟨hn, rfl⟩
  exact ⟨hn, trivial⟩

/-- After the first notice of an edit, the open document is read and news of it are sent. -/
theorem works_hostEdit (ov : Overlay) (host : Host) (file : String) (changes : List Change)
    (version : Int) :
    Works (fun n a => ov.Reads file n a ∨ ∃ name, ov.News file name version n a)
      (ov.notify file changes version).overlay (ov.hostEdit host file changes version).overlay := by
  have hnotify := works_notify ov file changes version
  have hdrain := works_drainEvicted (ov.notify file changes version).overlay file
  rw [hnotify.reads] at hdrain
  simp only [hostEdit]
  split
  · exact .refl _ _
  · next evicted ov' heq =>
    rw [heq] at hdrain
    have hround := works_announce host file evicted version ov'.watchers.files ov'
    simp only [hdrain.news, hnotify.news] at hround
    refine (hdrain.mono fun n a h => .inl h).trans (hround.mono ?_)
    rintro n a ⟨name, -, h⟩
    exact .inr ⟨name, h⟩

end Overlay

section

variable {P : Composite → Prop}

theorem Workspace.composites_openSource {w : Workspace} (hnew : ∀ file, P { file })
    (h : ∀ f ∈ w.composites, P f.composite) (file : String) (source : Nat) :
    ∀ f ∈ (w.openSource file source).2.composites, P f.composite := by
  unfold Workspace.openSource
  split
  · exact h
  · intro f hf
    rcases List.mem_append.1 hf with hf | hf
    · exact h f hf
    · rw [List.mem_singleton.1 hf]
      exact hnew file

theorem Workspace.composites_openText {w : Workspace} (hnew : ∀ file, P { file })
    (h : ∀ f ∈ w.composites, P f.composite) (file text : String) (version : Int) :
    ∀ f ∈ (w.openText file text version).2.composites, P f.composite := by
  unfold Workspace.openText
  split
  · exact h
  · exact Workspace.composites_openSource (w := (w.addSource ⟨text, version⟩).2) hnew h file _

theorem Overlay.composites_hostEdit {ov : Overlay}
    (k : Action.Keeps ov.workspace.options fun d => P d.composite)
    (h : ∀ f ∈ ov.workspace.composites, P f.composite) (host : Host) (file : String)
    (changes : List Change) (version : Int) :
    ∀ f ∈ (ov.hostEdit host file changes version).overlay.workspace.composites, P f.composite := by
  have hnotify := (works_notify ov file changes version).workspace
  have hrest := (works_hostEdit ov host file changes version).workspace
  exact hrest.composites (hnotify.frame.1 ▸ k) (hnotify.composites k h)

namespace HandedOverlay

variable {σ : HandedOverlay}

theorem composites_exec (k : Action.Keeps σ.overlay.workspace.options fun d => P d.composite)
    (hnew : ∀ file, P { file }) (h : ∀ f ∈ σ.overlay.workspace.composites, P f.composite)
    (c : Command) : ∀ f ∈ (σ.exec c).overlay.workspace.composites, P f.composite := by
  cases c with
  | editSource source changes version =>
    obtain ⟨sources, -, hw⟩ :=
      Workspace.editSource_frame σ.overlay.workspace source changes version
    simp only [exec, withWorkspace, hw]
    exact h
  | storeOpen file text version => exact Workspace.composites_openText hnew h file text version
  | storeOpenSource file source =>
    simp only [exec]
    split
    · exact Workspace.composites_openSource hnew h file source
    · exact h
  | act n a =>
    exact (Workspace.works_withDocument σ.overlay.workspace n a.run fun d => rfl).composites k h
  | look i =>
    simp only [exec, Session.look]
    split
    · next x _ =>
      exact (Workspace.works_look (fun _ _ => False) σ.overlay.workspace x).composites k h
    · exact h
  | openFile host file =>
    simp only [exec, withOverlay, Overlay.openFile]
    split
    · exact h
    · split
      · simp only [Overlay.workspace_forward]
        exact Workspace.composites_openText hnew h file _ 0
      · exact h
  | openText file text version =>
    have hopen := Workspace.composites_openText hnew h file text version
    simp only [exec, withOverlay, Overlay.openText]
    split
    · exact hopen
    · simpa only [Overlay.workspace_forward] using hopen
  | close file =>
    simp only [exec, withOverlay, Overlay.close, Overlay.workspace_stopForwarding]
    exact h
  | fileExists host name =>
    exact (Overlay.works_fileExists σ.overlay host name).workspace.composites k h
  | read host name => exact (Overlay.works_read σ.overlay host name).workspace.composites k h
  | notify file changes version =>
    exact (Overlay.works_notify σ.overlay file changes version).workspace.composites k h
  | hostEdit host file changes version =>
    exact Overlay.composites_hostEdit k h host file changes version
  | addSource | storeClose | hold | releaseAll | shutdown | watch | unwatch => exact h

theorem composites_run (o : Options) (k : Action.Keeps o fun d => P d.composite)
    (hnew : ∀ file, P { file }) (commands : List Command) :
    ∀ f ∈ ((start o).run commands).overlay.workspace.composites, P f.composite := by
  have hrun : ∀ σ : HandedOverlay, σ.overlay.workspace.options = o →
      (∀ f ∈ σ.overlay.workspace.composites, P f.composite) →
      ∀ f ∈ (σ.run commands).overlay.workspace.composites, P f.composite := by
    induction commands with
    | nil => exact fun σ _ h => h
    | cons c commands ih =>
      intro σ ho h
      exact ih (σ.exec c) ((options_exec σ c).trans ho) (composites_exec (ho ▸ k) hnew h c)
  exact hrun (start o) rfl (by simp [start, Overlay.ofWorkspace])

end HandedOverlay

end

end BlockLens
