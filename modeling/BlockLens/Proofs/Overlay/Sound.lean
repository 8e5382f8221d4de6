import BlockLens.Overlay.Edits
import BlockLens.Proofs.Watchers
import BlockLens.Proofs.Workspace.Session

set_option autoImplicit false

namespace BlockLens

theorem Workspace.Sound.documentById {w : Workspace} {L : Nat → Ledger} (h : w.Sound L)
    (file name : String) :
    ∃ L', Workspace.Grows L L' ∧ (w.documentById file name).2.Sound L' ∧
      ∀ x, (w.documentById file name).1 = .ok (some x) → (L' x.owner).docs x.doc := by
  unfold Workspace.documentById
  split
  · exact ⟨L, .refl L, h, by simp⟩
  · next n _ =>
    simp only [Workspace.withDocument]
    split
    · next d hd =>
      obtain ⟨L', hg, hs, hdocs⟩ := h.put_run hd (.documentById name)
      refine ⟨L', hg, hs, fun x hx => ?_⟩
      simp only [Action.run] at hdocs
      split at hx
      · next doc hdoc =>
        simp only [Option.some.injEq] at hdoc
        simp only [Except.ok.injEq, Option.map_eq_some_iff] at hx
        obtain ⟨b, hb, rfl⟩ := hx
        exact hdocs b (by simp [hdoc, hb, Except.toOption])
      · simp at hx
      · simp at hx
    · exact ⟨L, .refl L, h, by simp⟩

namespace Overlay

def Sound (ov : Overlay) (L : Nat → Ledger) : Prop := ov.workspace.Sound L ∧ ov.watchers.Numbered

def Stays (L : Nat → Ledger) (ov : Overlay) : Prop := ∃ L', Workspace.Grows L L' ∧ ov.Sound L'

variable {ov : Overlay} {L : Nat → Ledger}

theorem Sound.stays (h : ov.Sound L) : ov.Stays L := ⟨L, .refl L, h⟩

theorem Stays.trans {ov' : Overlay} (h : ov.Stays L) (h' : ∀ L', ov.Sound L' → ov'.Stays L') :
    ov'.Stays L := by
  obtain ⟨L₁, hg₁, h₁⟩ := h
  obtain ⟨L₂, hg₂, h₂⟩ := h' L₁ h₁
  exact ⟨L₂, hg₁.trans hg₂, h₂⟩

theorem Sound.withWorkspace (h : ov.Sound L) {α : Type} (f : Workspace → α × Workspace)
    (hf : ∃ L', Workspace.Grows L L' ∧ (f ov.workspace).2.Sound L') : (ov.withWorkspace f).2.Stays L := by
  obtain ⟨L', hg, hs⟩ := hf
  exact ⟨L', hg, hs, h.2⟩

theorem Sound.readBlock {w : Workspace} (h : w.Sound L) (file name : String) :
    ∃ L', Workspace.Grows L L' ∧ (readBlock file name w).2.Sound L' := by
  obtain ⟨L', hg, hs, hdocs⟩ := h.documentById file name
  unfold Overlay.readBlock
  split
  · next x w' hx =>
    rw [hx] at hs hdocs
    exact ⟨L', hg, hs.look (hdocs x rfl)⟩
  · next w' hx => exact ⟨L', hg, by rwa [hx] at hs⟩
  · next e w' hx => exact ⟨L', hg, by rwa [hx] at hs⟩

theorem Sound.read (h : ov.Sound L) (host : Host) (name : String) : (ov.read host name).2.Stays L := by
  unfold Overlay.read
  split
  · exact h.withWorkspace _ (Sound.readBlock h.1 _ name)
  · exact h.withWorkspace _ (h.1.withOpen _ readMain fun d => ⟨.mainModule, rfl⟩)
  · split
    · exact h.withWorkspace _ (h.1.withOpen name _ fun d => ⟨.update [] d.source.version, by
        simp [Action.run, Document.update, Source.edit]⟩)
    · exact h.stays
  · exact h.stays

theorem Sound.fileExists (h : ov.Sound L) (host : Host) (name : String) :
    (ov.fileExists host name).2.Stays L := by
  unfold Overlay.fileExists
  split
  · next id _ =>
    obtain ⟨L', hg, hs, -⟩ := h.1.documentById id.file name
    exact h.withWorkspace (·.documentById id.file name) ⟨L', hg, hs⟩
  · exact h.stays
  · exact h.stays
  · exact h.stays

theorem Sound.stopForwarding (h : ov.Sound L) (file : String) : (ov.stopForwarding file).Sound L := by
  unfold Overlay.stopForwarding
  split
  · exact ⟨h.1, h.2.unsubscribe _⟩
  · exact h

theorem Sound.forward (h : ov.Sound L) (file : String) (n : Nat) : (ov.forward file n).Sound L := by
  have hs : Sound { ov with watchers := (ov.watchers.subscribe file (.composite n)).2 } L :=
    ⟨h.1, h.2.subscribe _ _⟩
  exact hs.stopForwarding file

theorem Sound.openFile (h : ov.Sound L) (host : Host) (file : String) :
    (ov.openFile host file).2.Sound L := by
  unfold Overlay.openFile
  split
  · exact h
  · split
    · next text _ =>
      have hs : Sound { ov with workspace := (ov.workspace.openText file text 0).2 } L :=
        ⟨h.1.openText file text 0, h.2⟩
      exact hs.forward file _
    · exact h

theorem Sound.openText (h : ov.Sound L) (file text : String) (version : Int) :
    (ov.openText file text version).2.Sound L := by
  have hs : Sound { ov with workspace := (ov.workspace.openText file text version).2 } L :=
    ⟨h.1.openText file text version, h.2⟩
  simp only [Overlay.openText]
  split
  · exact hs
  · exact hs.forward file _

theorem Sound.close (h : ov.Sound L) (file : String) : (ov.close file).2.Sound L := by
  obtain ⟨hw, hn⟩ := h.stopForwarding file
  exact ⟨hw.close file, hn⟩

theorem Sound.shutdown (h : ov.Sound L) : ov.shutdown.Sound L :=
  ⟨h.1.closeAll, Watchers.numbered_clear _⟩

theorem Sound.deliver (h : ov.Sound L) (changes : List Change) (version : Int)
    (s : Subscription Listener) : (deliver changes version ov s).2.Stays L := by
  unfold Overlay.deliver
  split
  · exact h.stays
  · split
    · exact h.withWorkspace (·.withDocument _ fun _ d => d.update changes version)
        (h.1.withDocument _ _ fun d => ⟨.update changes version, rfl⟩)
    · exact h.stays

theorem Sound.deliverAll (h : ov.Sound L) (changes : List Change) (version : Int)
    (subs : List (Subscription Listener)) : (deliverAll changes version subs ov).2.Stays L := by
  induction subs generalizing ov L with
  | nil => exact h.stays
  | cons s subs ih => exact (h.deliver changes version s).trans fun L' h' => ih h'

theorem Sound.notify (h : ov.Sound L) (file : String) (changes : List Change) (version : Int) :
    (ov.notify file changes version).overlay.Stays L :=
  h.deliverAll changes version _

theorem Sound.needsNews (h : ov.Sound L) (file : String) (evicted : List String) (name : String) :
    (ov.needsNews file evicted name).2.Stays L := by
  unfold Overlay.needsNews
  split
  · exact h.stays
  · split
    · split
      · exact h.stays
      · exact h.withWorkspace (·.withOpen file fun o d => d.hasDocument o name)
          (h.1.withOpen file _ fun d => ⟨.hasDocument name, rfl⟩)
    · exact h.stays
  · exact h.stays
  · exact h.stays

def tell (host : Host) (file : String) (evicted : List String) (version : Int) (name : String)
    (ov : Overlay) : Notified :=
  let p := needsNews file evicted name ov
  let r := if p.1 then read host name p.2 else (none, p.2)
  match r.1 with
  | some text => notify name [⟨none, text⟩] version r.2
  | none => ⟨0, [], r.2⟩

theorem announce_cons (host : Host) (file : String) (evicted : List String) (version : Int)
    (name : String) (names : List String) (ov : Overlay) :
    announce host file evicted version (name :: names) ov =
      let n := tell host file evicted version name ov
      let m := announce host file evicted version names n.overlay
      ⟨n.count + m.count, n.deliveries ++ m.deliveries, m.overlay⟩ := rfl

theorem Sound.tell (h : ov.Sound L) (host : Host) (file : String) (evicted : List String)
    (version : Int) (name : String) : (tell host file evicted version name ov).overlay.Stays L := by
  have hnews := h.needsNews file evicted name
  simp only [Overlay.tell]
  by_cases hp : (ov.needsNews file evicted name).1 = true
  · simp only [hp, if_true]
    have hread := hnews.trans fun L' h' => h'.read host name
    split
    · exact hread.trans fun L' h' => h'.notify name _ version
    · exact hread
  · simp only [hp, Bool.false_eq_true, if_false]
    exact hnews

theorem Sound.announce (h : ov.Sound L) (host : Host) (file : String) (evicted : List String)
    (version : Int) (names : List String) :
    (announce host file evicted version names ov).overlay.Stays L := by
  induction names generalizing ov L with
  | nil => exact h.stays
  | cons name names ih =>
    rw [announce_cons]
    exact (h.tell host file evicted version name).trans fun L' h' => ih h'

theorem Sound.hostEdit (h : ov.Sound L) (host : Host) (file : String) (changes : List Change)
    (version : Int) : (ov.hostEdit host file changes version).overlay.Stays L := by
  have hnotify := h.notify file changes version
  have hdrain : Stays L ((ov.notify file changes version).overlay.withWorkspace
      (·.withOpen file fun o d => d.drainEvicted o)).2 :=
    hnotify.trans fun L₁ h₁ => h₁.withWorkspace (·.withOpen file fun o d => d.drainEvicted o)
      (h₁.1.withOpen file _ fun d => ⟨.drainEvicted, rfl⟩)
  simp only [Overlay.hostEdit]
  split
  · exact hnotify
  · next evicted ov' heq =>
    rw [heq] at hdrain
    exact hdrain.trans fun L₂ h₂ => h₂.announce host file evicted version _

theorem options_readBlock (w : Workspace) (file name : String) :
    (readBlock file name w).2.options = w.options := by
  have h := Workspace.options_documentById w file name
  unfold Overlay.readBlock
  split
  · next hw => rw [Workspace.options_look, ← h, hw]
  · next hw => rw [← h, hw]
  · next hw => rw [← h, hw]

theorem options_read (ov : Overlay) (host : Host) (name : String) :
    (ov.read host name).2.workspace.options = ov.workspace.options := by
  unfold Overlay.read
  split
  · exact options_readBlock _ _ _
  · exact Workspace.options_withOpen _ _ _
  · split
    · exact Workspace.options_withOpen _ _ _
    · rfl
  · rfl

theorem options_fileExists (ov : Overlay) (host : Host) (name : String) :
    (ov.fileExists host name).2.workspace.options = ov.workspace.options := by
  unfold Overlay.fileExists
  split
  · exact Workspace.options_documentById _ _ _
  · rfl
  · rfl
  · rfl

@[simp] theorem workspace_stopForwarding (ov : Overlay) (file : String) :
    (ov.stopForwarding file).workspace = ov.workspace := by
  unfold Overlay.stopForwarding
  split <;> rfl

@[simp] theorem workspace_forward (ov : Overlay) (file : String) (n : Nat) :
    (ov.forward file n).workspace = ov.workspace := by
  simp [Overlay.forward]

theorem options_openFile (ov : Overlay) (host : Host) (file : String) :
    (ov.openFile host file).2.workspace.options = ov.workspace.options := by
  unfold Overlay.openFile
  split
  · rfl
  · split
    · simp
    · rfl

theorem options_openText (ov : Overlay) (file text : String) (version : Int) :
    (ov.openText file text version).2.workspace.options = ov.workspace.options := by
  simp only [Overlay.openText]
  split <;> simp

theorem options_deliverAll (ov : Overlay) (changes : List Change) (version : Int)
    (subs : List (Subscription Listener)) :
    (deliverAll changes version subs ov).2.workspace.options = ov.workspace.options := by
  induction subs generalizing ov with
  | nil => rfl
  | cons s subs ih =>
    rw [Overlay.deliverAll, ih]
    unfold Overlay.deliver
    split
    · rfl
    · split
      · exact Workspace.options_withDocument _ _ _
      · rfl

theorem options_tell (ov : Overlay) (host : Host) (file : String) (evicted : List String)
    (version : Int) (name : String) :
    (tell host file evicted version name ov).overlay.workspace.options = ov.workspace.options := by
  have hnews : (needsNews file evicted name ov).2.workspace.options = ov.workspace.options := by
    unfold Overlay.needsNews
    split
    · rfl
    · split
      · split
        · rfl
        · exact Workspace.options_withOpen _ _ _
      · rfl
    · rfl
    · rfl
  have hread : (if (needsNews file evicted name ov).1 then
      read host name (needsNews file evicted name ov).2
      else (none, (needsNews file evicted name ov).2)).2.workspace.options =
        ov.workspace.options := by
    split
    · rw [options_read, hnews]
    · exact hnews
  simp only [Overlay.tell]
  split
  · exact (options_deliverAll _ _ _ _).trans hread
  · exact hread

theorem options_announce (ov : Overlay) (host : Host) (file : String) (evicted : List String)
    (version : Int) (names : List String) :
    (announce host file evicted version names ov).overlay.workspace.options =
      ov.workspace.options := by
  induction names generalizing ov with
  | nil => rfl
  | cons name names ih =>
    rw [announce_cons]
    exact (ih _).trans (options_tell ov host file evicted version name)

theorem options_hostEdit (ov : Overlay) (host : Host) (file : String) (changes : List Change)
    (version : Int) :
    (ov.hostEdit host file changes version).overlay.workspace.options = ov.workspace.options := by
  have hnotify : (ov.notify file changes version).overlay.workspace.options = ov.workspace.options :=
    options_deliverAll _ _ _ _
  have hdrain : ((ov.notify file changes version).overlay.withWorkspace
      (·.withOpen file fun o d => d.drainEvicted o)).2.workspace.options = ov.workspace.options :=
    (Workspace.options_withOpen _ _ _).trans hnotify
  simp only [Overlay.hostEdit]
  split
  · exact hnotify
  · next evicted ov' heq =>
    rw [heq] at hdrain
    exact (options_announce _ _ _ _ _ _).trans hdrain

end Overlay

/-- An overlay, and the block documents that were handed out. -/
structure HandedOverlay where
  overlay : Overlay
  handed : List Handle := []

/-- What clients of the overlay, of its store and of the documents can do. -/
inductive Command where
  | addSource (s : Source)
  | editSource (source : Nat) (changes : List Change) (version : Int)
  | storeOpen (file text : String) (version : Int)
  | storeOpenSource (file : String) (source : Nat)
  | storeClose (file : String)
  | hold (n : Nat)
  | releaseAll
  | act (n : Nat) (a : Action)
  /-- Looks at the document that was handed out as the `i`-th. -/
  | look (i : Nat)
  | openFile (host : Host) (file : String)
  | openText (file text : String) (version : Int)
  | close (file : String)
  | shutdown
  | fileExists (host : Host) (name : String)
  | read (host : Host) (name : String)
  | watch (file : String)
  | unwatch (id : Nat)
  | notify (file : String) (changes : List Change) (version : Int)
  | hostEdit (host : Host) (file : String) (changes : List Change) (version : Int)

namespace HandedOverlay

def start (o : Options) : HandedOverlay := { overlay := .ofWorkspace { options := o } }

def session (σ : HandedOverlay) : Session := ⟨σ.overlay.workspace, σ.handed⟩

def withSession (σ : HandedOverlay) (τ : Session) : HandedOverlay :=
  ⟨{ σ.overlay with workspace := τ.workspace }, τ.handed⟩

def withWorkspace (σ : HandedOverlay) (w : Workspace) : HandedOverlay :=
  { σ with overlay := { σ.overlay with workspace := w } }

def withOverlay (σ : HandedOverlay) (ov : Overlay) : HandedOverlay := { σ with overlay := ov }

def exec (σ : HandedOverlay) : Command → HandedOverlay
  | .addSource s => σ.withWorkspace (σ.overlay.workspace.addSource s).2
  | .editSource source changes version =>
    σ.withWorkspace (σ.overlay.workspace.editSource source changes version).2
  | .storeOpen file text version =>
    σ.withWorkspace (σ.overlay.workspace.openText file text version).2
  | .storeOpenSource file source =>
    if source < σ.overlay.workspace.sources.length then
      σ.withWorkspace (σ.overlay.workspace.openSource file source).2
    else σ
  | .storeClose file => σ.withWorkspace (σ.overlay.workspace.close file)
  | .hold n => σ.withWorkspace (σ.overlay.workspace.hold n)
  | .releaseAll => σ.withWorkspace σ.overlay.workspace.releaseAll
  | .act n a => σ.withSession (σ.session.act n a)
  | .look i => σ.withSession (σ.session.look i)
  | .openFile host file => σ.withOverlay (σ.overlay.openFile host file).2
  | .openText file text version => σ.withOverlay (σ.overlay.openText file text version).2
  | .close file => σ.withOverlay (σ.overlay.close file).2
  | .shutdown => σ.withOverlay σ.overlay.shutdown
  | .fileExists host name => σ.withOverlay (σ.overlay.fileExists host name).2
  | .read host name => σ.withOverlay (σ.overlay.read host name).2
  | .watch file => σ.withOverlay (σ.overlay.watch file).2
  | .unwatch id => σ.withOverlay (σ.overlay.unwatch id)
  | .notify file changes version => σ.withOverlay (σ.overlay.notify file changes version).overlay
  | .hostEdit host file changes version =>
    σ.withOverlay (σ.overlay.hostEdit host file changes version).overlay

def run (σ : HandedOverlay) (commands : List Command) : HandedOverlay := commands.foldl exec σ

/-- The overlay is sound, and all that was handed out is on its ledgers. -/
def Sound (σ : HandedOverlay) : Prop :=
  ∃ L, σ.overlay.Sound L ∧ ∀ h ∈ σ.handed, (L h.owner).docs h.doc

variable {σ : HandedOverlay}

theorem sound_start (o : Options) : (start o).Sound :=
  ⟨fun _ => .start, ⟨Workspace.sound_empty o, Watchers.numbered_empty⟩, by simp [start]⟩

theorem Sound.withWorkspace (h : σ.Sound) {w : Workspace}
    (hw : ∀ L, σ.overlay.workspace.Sound L → w.Sound L) : (σ.withWorkspace w).Sound := by
  obtain ⟨L, ⟨hs, hn⟩, hh⟩ := h
  exact ⟨L, ⟨hw L hs, hn⟩, hh⟩

theorem Sound.withOverlay (h : σ.Sound) {ov : Overlay}
    (hov : ∀ L, σ.overlay.Sound L → ov.Stays L) : (σ.withOverlay ov).Sound := by
  obtain ⟨L, hs, hh⟩ := h
  obtain ⟨L', hg, hs'⟩ := hov L hs
  exact ⟨L', hs', fun x hx => (hg _).1 _ (hh x hx)⟩

theorem Sound.withSession (h : σ.Sound) {τ : Session}
    (hτ : ∀ L, σ.session.Sound L → ∃ L', Workspace.Grows L L' ∧ τ.Sound L') :
    (σ.withSession τ).Sound := by
  obtain ⟨L, ⟨hs, hn⟩, hh⟩ := h
  obtain ⟨L', -, hs', hh'⟩ := hτ L ⟨hs, hh⟩
  exact ⟨L', ⟨hs', hn⟩, hh'⟩

theorem Sound.exec (h : σ.Sound) (c : Command) : (σ.exec c).Sound := by
  cases c with
  | addSource s => exact h.withWorkspace fun L hs => hs.addSource s
  | editSource source changes version =>
    exact h.withWorkspace fun L hs => hs.editSource source changes version
  | storeOpen file text version => exact h.withWorkspace fun L hs => hs.openText file text version
  | storeOpenSource file source =>
    simp only [HandedOverlay.exec]
    split
    · next hlt => exact h.withWorkspace fun L hs => hs.openSource file hlt
    · exact h
  | storeClose file => exact h.withWorkspace fun L hs => hs.close file
  | hold n => exact h.withWorkspace fun L hs => hs.hold n
  | releaseAll => exact h.withWorkspace fun L hs => hs.releaseAll
  | act n a => exact h.withSession fun L hs => hs.act n a
  | look i => exact h.withSession fun L hs => ⟨L, .refl L, hs.look i⟩
  | openFile host file => exact h.withOverlay fun L hs => (hs.openFile host file).stays
  | openText file text version => exact h.withOverlay fun L hs => (hs.openText file text version).stays
  | close file => exact h.withOverlay fun L hs => (hs.close file).stays
  | shutdown => exact h.withOverlay fun L hs => hs.shutdown.stays
  | fileExists host name => exact h.withOverlay fun L hs => hs.fileExists host name
  | read host name => exact h.withOverlay fun L hs => hs.read host name
  | watch file => exact h.withOverlay fun L hs => Overlay.Sound.stays ⟨hs.1, hs.2.subscribe file _⟩
  | unwatch id => exact h.withOverlay fun L hs => Overlay.Sound.stays ⟨hs.1, hs.2.unsubscribe id⟩
  | notify file changes version => exact h.withOverlay fun L hs => hs.notify file changes version
  | hostEdit host file changes version =>
    exact h.withOverlay fun L hs => hs.hostEdit host file changes version

theorem Sound.run (h : σ.Sound) (commands : List Command) : (σ.run commands).Sound := by
  induction commands generalizing σ with
  | nil => exact h
  | cons c commands ih => exact ih (h.exec c)

theorem options_exec (σ : HandedOverlay) (c : Command) :
    (σ.exec c).overlay.workspace.options = σ.overlay.workspace.options := by
  cases c with
  | editSource source changes version => exact Workspace.options_editSource _ _ _ _
  | storeOpen file text version => exact Workspace.options_openText _ _ _ _
  | storeOpenSource file source =>
    simp only [HandedOverlay.exec]
    split
    · exact Workspace.options_openSource _ _ _
    · rfl
  | act n a => exact Workspace.options_withDocument _ _ _
  | look i =>
    simp only [HandedOverlay.exec, Session.look]
    split
    · exact Workspace.options_look _ _
    · rfl
  | openFile host file => exact Overlay.options_openFile _ _ _
  | openText file text version => exact Overlay.options_openText _ _ _ _
  | close file =>
    have h : (σ.overlay.stopForwarding file).workspace.options = σ.overlay.workspace.options := by simp
    exact h
  | fileExists host name => exact Overlay.options_fileExists _ _ _
  | read host name => exact Overlay.options_read _ _ _
  | notify file changes version => exact Overlay.options_deliverAll _ _ _ _
  | hostEdit host file changes version => exact Overlay.options_hostEdit _ _ _ _ _
  | addSource | storeClose | hold | releaseAll | shutdown | watch | unwatch => rfl

theorem options_run (σ : HandedOverlay) (commands : List Command) :
    (σ.run commands).overlay.workspace.options = σ.overlay.workspace.options := by
  induction commands generalizing σ with
  | nil => rfl
  | cons c commands ih => exact (ih _).trans (options_exec σ c)

end HandedOverlay

end BlockLens
