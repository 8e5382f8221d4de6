import BlockLens.Proofs.Overlay.InStep
/-!
Whether the open document of a file hears of its edits, when files are opened and closed through the
overlay and in the store behind it. Once it does, it does so until the file is closed. But a file that
was opened in the store is not connected when it is opened again, and a file that was closed in the
store leaves its subscription behind, which passes for that of the next document.
-/

set_option autoImplicit false

namespace BlockLens

namespace Workspace

variable {w : Workspace} {file : String} {n : Nat}

theorem get?_openSource (h : w.get? file = some n) (other : String) (source : Nat) :
    (w.openSource other source).2.get? file = some n := by
  unfold openSource
  split
  · exact h
  · unfold get? at h ⊢
    rw [List.lookup_append, h]
    rfl

theorem get?_openText (h : w.get? file = some n) (other text : String) (version : Int) :
    (w.openText other text version).2.get? file = some n := by
  unfold openText
  split
  · exact h
  · exact get?_openSource (w := (w.addSource ⟨text, version⟩).2) h other _

theorem get?_openText_self (w : Workspace) (file text : String) (version : Int) :
    (w.openText file text version).2.get? file = some (w.openText file text version).1 := by
  cases hn : w.get? file with
  | some n => simp only [openText, hn]
  | none =>
    have hopened : (w.addSource ⟨text, version⟩).2.get? file = none := hn
    simp only [openText, hn, openSource, hopened]
    unfold get? at hopened ⊢
    rw [List.lookup_append, hopened]
    simp

theorem get?_close (h : w.get? file = some n) {other : String} (hne : other ≠ file) :
    (w.close other).get? file = some n := by
  unfold get? close at *
  obtain ⟨l, r, hopened, hl⟩ := List.lookup_eq_some_iff.1 h
  refine List.lookup_eq_some_iff.2 ⟨l.filter (·.1 ≠ other), r.filter (·.1 ≠ other), ?_, ?_⟩
  · rw [hopened, List.filter_append, List.filter_cons_of_pos (by simpa using Ne.symm hne)]
  · exact fun p hp => hl p (List.mem_filter.1 hp).1

end Workspace

def Command.Ends (file : String) : Command → Prop
  | .close other | .storeClose other => other = file
  | .shutdown => True
  | _ => False

theorem HandedOverlay.get?_exec {σ : HandedOverlay} {file : String} {n : Nat}
    (hn : σ.overlay.workspace.get? file = some n) {c : Command} (hc : ¬ c.Ends file) :
    (σ.exec c).overlay.workspace.get? file = some n := by
  cases c with
  | editSource source changes version =>
    obtain ⟨sources, -, hw⟩ :=
      Workspace.editSource_frame σ.overlay.workspace source changes version
    simp only [exec, withWorkspace, hw]
    exact hn
  | storeOpen other text version => exact Workspace.get?_openText hn other text version
  | storeOpenSource other source =>
    simp only [exec]
    split
    · exact Workspace.get?_openSource hn other source
    · exact hn
  | storeClose other => exact Workspace.get?_close hn hc
  | act m a =>
    have hw := Workspace.works_withDocument σ.overlay.workspace m a.run fun d => rfl
    exact (hw.get? file).trans hn
  | look i =>
    simp only [exec, Session.look]
    split
    · next x _ =>
      have hw := Workspace.works_look (fun _ _ => False) σ.overlay.workspace x
      exact (hw.get? file).trans hn
    · exact hn
  | openFile host other =>
    simp only [exec, withOverlay, Overlay.openFile]
    split
    · exact hn
    · split
      · simp only [Overlay.workspace_forward]
        exact Workspace.get?_openText hn other _ 0
      · exact hn
  | openText other text version =>
    have hopen := Workspace.get?_openText hn other text version
    simp only [exec, withOverlay, Overlay.openText]
    split
    · exact hopen
    · simpa only [Overlay.workspace_forward] using hopen
  | close other =>
    simp only [exec, withOverlay, Overlay.close, Overlay.workspace_stopForwarding]
    exact Workspace.get?_close hn hc
  | shutdown => exact absurd trivial hc
  | fileExists host name =>
    exact ((Overlay.works_fileExists σ.overlay host name).workspace.get? file).trans hn
  | read host name => exact ((Overlay.works_read σ.overlay host name).workspace.get? file).trans hn
  | notify other changes version =>
    exact ((Overlay.works_notify σ.overlay other changes version).workspace.get? file).trans hn
  | hostEdit host other changes version =>
    have hnotify := (Overlay.works_notify σ.overlay other changes version).workspace
    have hrest := (Overlay.works_hostEdit σ.overlay host other changes version).workspace
    exact (hrest.get? file).trans ((hnotify.get? file).trans hn)
  | addSource | hold | releaseAll | watch | unwatch => exact hn

namespace Overlay

variable {ov ov' : Overlay} {file : String} {n : Nat}

/-! ### Subscriptions -/

structure SameTables (ov ov' : Overlay) : Prop where
  watchers : ov'.watchers = ov.watchers
  forwarding : ov'.forwarding = ov.forwarding

theorem SameTables.relays (h : SameTables ov ov') : ov'.relays = ov.relays := by
  simp only [Overlay.relays, h.watchers]

theorem Recorded.same (h : ov.Recorded) (hs : SameTables ov ov') : ov'.Recorded where
  forwarding := by rw [hs.forwarding, hs.relays, h.forwarding]
  files := hs.relays ▸ h.files
  numbered := hs.watchers ▸ h.numbered

theorem Works.sameTables {T : Nat → Action → Prop} (h : Works T ov ov') : SameTables ov ov' :=
  ⟨h.watchers, h.forwarding⟩

theorem sameTables_forward (ov : Overlay) (w : Workspace) (file : String) (n : Nat) :
    SameTables (ov.forward file n) (forward file n { ov with workspace := w }) := by
  cases hl : ov.forwarding.lookup file <;> constructor <;> simp only [forward, stopForwarding, hl]

/-- It makes no difference if the old subscription is ended before there is a new one. -/
theorem Recorded.forward_eq (h : ov.Recorded) (file : String) (n : Nat) :
    let stopped := ov.stopForwarding file
    ov.forward file n = { stopped with
      watchers := (stopped.watchers.subscribe file (.composite n)).2
      forwarding := stopped.forwarding ++ [(file, stopped.watchers.next)] } := by
  cases hl : ov.forwarding.lookup file with
  | none => simp only [Overlay.forward, Overlay.stopForwarding, hl, Watchers.subscribe]
  | some id =>
    obtain ⟨s, hs, -, rfl⟩ := h.lookup_eq_some.1 hl
    have hid : ov.watchers.next ≠ s.id :=
      Nat.ne_of_gt (h.numbered.below s (mem_relays.1 hs).1)
    simp [Overlay.forward, Overlay.stopForwarding, hl, Watchers.subscribe, Watchers.unsubscribe, hid]

theorem Recorded.relays_forward (h : ov.Recorded) (file : String) (n : Nat) :
    (ov.forward file n).relays =
      ov.relays.filter (·.file ≠ file) ++ [⟨ov.watchers.next, file, .composite n⟩] := by
  have hrelays : (ov.forward file n).relays = (ov.stopForwarding file).relays ++
      [⟨(ov.stopForwarding file).watchers.next, file, .composite n⟩] :=
    relays_of_subscribe (congrArg Overlay.watchers (h.forward_eq file n))
  rw [hrelays, (h.relays_stopForwarding file).1, next_stopForwarding]

theorem Recorded.forward (h : ov.Recorded) (file : String) (n : Nat) :
    (ov.forward file n).Recorded := by
  rw [h.forward_eq]
  refine (h.stopForwarding file).subscribe (fun s hs => ?_) n
  rw [(h.relays_stopForwarding file).1] at hs
  simpa using (List.mem_filter.1 hs).2

theorem next_forward (ov : Overlay) (file : String) (n : Nat) :
    (ov.forward file n).watchers.next = ov.watchers.next + 1 := by
  simp only [Overlay.forward, next_stopForwarding]
  rfl

/-- A subscription to the file leads to the composite. -/
def Connected (ov : Overlay) (file : String) (n : Nat) : Prop :=
  ∃ s ∈ ov.watchers.forFile file, s.listener = .composite n

theorem connected_iff :
    ov.Connected file n ↔ ∃ s ∈ ov.relays, s.file = file ∧ s.listener = .composite n := by
  constructor
  · rintro ⟨s, hs, hn⟩
    obtain ⟨hlive, hfile⟩ := Watchers.mem_forFile.1 hs
    exact ⟨s, mem_relays.2 ⟨hlive, n, hn⟩, hfile, hn⟩
  · rintro ⟨s, hs, hfile, hn⟩
    exact ⟨s, Watchers.mem_forFile.2 ⟨(mem_relays.1 hs).1, hfile⟩, hn⟩

theorem SameTables.connected (h : SameTables ov ov') : ov'.Connected file n ↔ ov.Connected file n := by
  rw [Connected, h.watchers, Connected]

theorem Recorded.connected_forward (h : ov.Recorded) (file : String) (n : Nat) :
    (ov.forward file n).Connected file n := by
  rw [connected_iff, h.relays_forward]
  exact ⟨⟨ov.watchers.next, file, .composite n⟩, by simp, rfl, rfl⟩

theorem Connected.of_relays (hc : ov.Connected file n)
    (h : ∀ s ∈ ov.relays, s.file = file → s ∈ ov'.relays) : ov'.Connected file n := by
  obtain ⟨s, hs, hfile, hn⟩ := connected_iff.1 hc
  exact connected_iff.2 ⟨s, h s hs hfile, hfile, hn⟩

theorem Connected.lookup_ne_none (hc : ov.Connected file n) (h : ov.Recorded) :
    ov.forwarding.lookup file ≠ none := by
  obtain ⟨s, hs, hfile, -⟩ := connected_iff.1 hc
  rw [h.lookup_eq_some.2 ⟨s, hs, hfile, rfl⟩]
  exact Option.some_ne_none _

end Overlay

/-- What a command does to the subscriptions and to the record of them. -/
inductive Overlay.Rewires (ov : Overlay) : Command → Overlay → Prop where
  | keeps {c : Command} {ov' : Overlay} (h : SameTables ov ov') : Rewires ov c ov'
  /-- Only for a file that is not open, or has nothing on record. -/
  | forwards {c : Command} {ov' : Overlay} (file : String) (n : Nat)
      (hnew : ov.workspace.get? file = none ∨ ov.forwarding.lookup file = none)
      (h : SameTables (ov.forward file n) ov') : Rewires ov c ov'
  | closes {ov' : Overlay} (file : String) (h : SameTables (ov.stopForwarding file) ov') :
      Rewires ov (.close file) ov'
  | shutdown : Rewires ov .shutdown ov.shutdown
  | watch (file : String) : Rewires ov (.watch file) (ov.watch file).2
  | unwatch (id : Nat) : Rewires ov (.unwatch id) (ov.unwatch id)

theorem HandedOverlay.rewires_exec (σ : HandedOverlay) (c : Command) :
    σ.overlay.Rewires c (σ.exec c).overlay := by
  cases c with
  | openFile host file =>
    simp only [exec, withOverlay, Overlay.openFile]
    split
    · exact .keeps ⟨rfl, rfl⟩
    · next hn =>
      split
      · exact .forwards file _ (.inl hn) (Overlay.sameTables_forward _ _ _ _)
      · exact .keeps ⟨rfl, rfl⟩
  | openText file text version =>
    simp only [exec, withOverlay, Overlay.openText]
    split
    · exact .keeps ⟨rfl, rfl⟩
    · next hl =>
      refine .forwards file _ (.inr ?_) (Overlay.sameTables_forward _ _ _ _)
      exact Option.not_isSome_iff_eq_none.1 hl
  | close file => exact .closes file ⟨rfl, rfl⟩
  | shutdown => exact .shutdown
  | watch file => exact .watch file
  | unwatch id => exact .unwatch id
  | storeOpenSource file source =>
    simp only [exec]
    split <;> exact .keeps ⟨rfl, rfl⟩
  | fileExists host name => exact .keeps (Overlay.works_fileExists σ.overlay host name).sameTables
  | read host name => exact .keeps (Overlay.works_read σ.overlay host name).sameTables
  | notify file changes version =>
    exact .keeps (Overlay.works_notify σ.overlay file changes version).sameTables
  | hostEdit host file changes version =>
    have hnotify := Overlay.works_notify σ.overlay file changes version
    have hrest := Overlay.works_hostEdit σ.overlay host file changes version
    exact .keeps ⟨hrest.watchers.trans hnotify.watchers, hrest.forwarding.trans hnotify.forwarding⟩
  | addSource | editSource | storeOpen | storeClose | hold | releaseAll | act | look =>
    exact .keeps ⟨rfl, rfl⟩

namespace Overlay

variable {ov : Overlay} {file : String} {n : Nat} {changes : List Change} {version : Int}
  {s₀ s : Source} {d : Document}

/-! ### Edits -/

theorem source_deliverAll (hok : s₀.edit changes version = .ok s)
    {subs : List (Subscription Listener)} (hsubs : ∃ t ∈ subs, t.listener = .composite n)
    (ha : ov.workspace.isAlive n = true) (hd : ov.workspace.document? n = some d)
    (ht : s₀.Takes changes version d.source) :
    ∃ e, (deliverAll changes version subs ov).2.workspace.document? n = some e ∧ e.source = s := by
  induction subs generalizing ov d with
  | nil => simp at hsubs
  | cons t subs ih =>
    have hdeliver := (works_deliver changes version ov t).workspace
    rw [deliverAll]
    by_cases htn : t.listener = .composite n
    · have hfirst : (deliver changes version ov t).2.workspace.document? n =
          some (d.update changes version).2 := by
        simp only [deliver, htn, ha, if_true, withWorkspace, Workspace.withDocument, hd]
        exact Workspace.document?_put_self hd _
      -- the others have nothing to add
      refine (works_deliverAll changes version subs _).workspace.document_source (Q := (· = s)) ?_
        hfirst (ht.source_update hok)
      rintro m a ⟨-, rfl⟩ - c rfl
      exact Document.source_update_of_version (Source.version_of_edit hok).2 changes
    · obtain ⟨e, he, hte⟩ := hdeliver.document_source (Q := s₀.Takes changes version)
        (by rintro m a ⟨-, rfl⟩ - c hc; exact hc.update) hd ht
      obtain ⟨t', ht', htn'⟩ := hsubs
      refine ih ⟨t', (List.mem_cons.1 ht').resolve_left ?_, htn'⟩ ((hdeliver.isAlive n).trans ha) he hte
      rintro rfl
      exact htn htn'

/-- A connected document takes what its text can take, and keeps it in the round that follows. -/
theorem Connected.source_hostEdit (hc : ov.Connected file n) (ha : ov.workspace.isAlive n = true)
    (hd : ov.workspace.document? n = some d) (hok : d.source.edit changes version = .ok s)
    (host : Host) :
    ∃ e, (ov.hostEdit host file changes version).overlay.workspace.document? n = some e ∧
      e.source = s := by
  obtain ⟨e, he, hes⟩ := source_deliverAll hok hc ha hd (.inl rfl)
  refine (works_hostEdit ov host file changes version).workspace.document_source (Q := (· = s)) ?_
    he hes
  rintro m a hT - c rfl
  have hversion := (Source.version_of_edit hok).2
  rcases hT with hr | ⟨name, hr | ⟨-, text, -, rfl⟩⟩
  · exact hr.2.source_run _ c
  · exact hr.2.source_run _ c
  · exact Document.source_update_of_version hversion _

/-- A subscription leads to a composite over the text of this one. -/
def Reached (ov : Overlay) (n : Nat) : Prop :=
  ∃ t ∈ ov.watchers.live, ∃ m, t.listener = .composite m ∧
    ov.workspace.textOf? m = ov.workspace.textOf? n

/-- An edit leaves a text alone to which no subscription leads. -/
theorem source_hostEdit_of_not_reached (hno : ¬ ov.Reached n)
    (hd : ov.workspace.document? n = some d) (host : Host) :
    ∃ e, (ov.hostEdit host file changes version).overlay.workspace.document? n = some e ∧
      e.source = d.source := by
  have hedits : ∀ {name changes m a}, Edits (ov.watchers.forFile name) changes version m a →
      ov.workspace.textOf? m = ov.workspace.textOf? n → False := by
    rintro name changes m a ⟨⟨t, ht, htm⟩, -⟩ htext
    exact hno ⟨t, (Watchers.mem_forFile.1 ht).1, m, htm, htext⟩
  have hnotify := (works_notify ov file changes version).workspace
  obtain ⟨e, he, hes⟩ := hnotify.document_source (Q := (· = d.source))
    (fun m a hT htext => (hedits hT htext).elim) hd rfl
  refine (works_hostEdit ov host file changes version).workspace.document_source
    (Q := (· = d.source)) ?_ he hes
  rintro m a hT htext c hc
  rw [hnotify.textOf?, hnotify.textOf?] at htext
  rcases hT with hr | ⟨name, hr | ⟨-, text, hr⟩⟩
  · exact (hr.2.source_run _ c).trans hc
  · exact (hr.2.source_run _ c).trans hc
  · exact (hedits hr htext).elim

theorem Recorded.connected_openFile (h : ov.Recorded) {host : Host}
    (hn : (ov.openFile host file).1 = .ok n) :
    (ov.openFile host file).2.workspace.get? file = some n ∧
      ((ov.openFile host file).2.Connected file n ↔
        ov.workspace.get? file = none ∨ ov.Connected file n) := by
  cases hopen : ov.workspace.get? file with
  | some m =>
    simp only [openFile, hopen] at hn ⊢
    obtain rfl := Except.ok.inj hn
    exact ⟨rfl, by simp⟩
  | none =>
    simp only [openFile, hopen] at hn ⊢
    split at hn
    · next text _ =>
      obtain rfl := Except.ok.inj hn
      refine ⟨?_, fun _ => .inl trivial, fun _ => ?_⟩
      · rw [workspace_forward]
        exact Workspace.get?_openText_self _ _ _ _
      · exact (sameTables_forward _ _ _ _).connected.2 (h.connected_forward file _)
    · contradiction

theorem Recorded.connected_openText (h : ov.Recorded) (file text : String) (version : Int) :
    let p := ov.openText file text version
    p.2.workspace.get? file = some p.1 ∧
      (p.2.Connected file p.1 ↔ ov.forwarding.lookup file = none ∨ ov.Connected file p.1) := by
  intro p
  let q := ov.workspace.openText file text version
  have hself : q.2.get? file = some q.1 := Workspace.get?_openText_self _ _ _ _
  cases hl : ov.forwarding.lookup file with
  | some id =>
    have hp : p = (q.1, { ov with workspace := q.2 }) := by simp [p, q, openText, hl]
    rw [hp]
    exact ⟨hself, by simp [Connected]⟩
  | none =>
    have hp : p = (q.1, Overlay.forward file q.1 { ov with workspace := q.2 }) := by
      simp [p, q, openText, hl]
    rw [hp]
    refine ⟨?_, fun _ => .inl rfl, fun _ => ?_⟩
    · rw [workspace_forward]
      exact hself
    · exact (sameTables_forward _ _ _ _).connected.2 (h.connected_forward file _)

end Overlay

/-! ### Runs -/

/-- The numbers of the subscriptions that clients were given, too. -/
structure SubscribedOverlay extends HandedOverlay where
  given : List Nat := []

namespace SubscribedOverlay

def start (o : Options) : SubscribedOverlay := { toHandedOverlay := .start o }

/-- Clients end no subscriptions but those that they were given. -/
def exec (σ : SubscribedOverlay) (c : Command) : SubscribedOverlay :=
  match c with
  | .watch _ => ⟨σ.toHandedOverlay.exec c, σ.given ++ [σ.overlay.watchers.next]⟩
  | .unwatch id => if id ∈ σ.given then { σ with toHandedOverlay := σ.toHandedOverlay.exec c } else σ
  | _ => { σ with toHandedOverlay := σ.toHandedOverlay.exec c }

def run (σ : SubscribedOverlay) (commands : List Command) : SubscribedOverlay := commands.foldl exec σ

structure Recorded (σ : SubscribedOverlay) : Prop where
  overlay : σ.overlay.Recorded
  below : ∀ id ∈ σ.given, id < σ.overlay.watchers.next
  given : ∀ id ∈ σ.given, ∀ s ∈ σ.overlay.relays, s.id ≠ id

variable {σ : SubscribedOverlay} {file : String} {n : Nat}

theorem recorded_start (o : Options) : (start o).Recorded where
  overlay := (Overlay.inStep_empty _ rfl rfl rfl).recorded
  below := by simp [start]
  given := by simp [start]

theorem exec_cases (σ : SubscribedOverlay) (c : Command) :
    σ.exec c = σ ∨ (σ.exec c).toHandedOverlay = σ.toHandedOverlay.exec c ∧ ∀ id, c = .unwatch id → id ∈ σ.given := by
  cases c with
  | unwatch id =>
    by_cases hid : id ∈ σ.given
    · refine .inr ⟨by simp [exec, hid], fun id' h => ?_⟩
      rw [Command.unwatch.injEq] at h
      exact h ▸ hid
    · exact .inl (by simp [exec, hid])
  | _ => exact .inr ⟨rfl, by simp⟩

theorem Recorded.handed (h : σ.Recorded) {c : Command} (hwatch : ∀ file, c ≠ .watch file)
    (hgiven : ∀ id, c = .unwatch id → id ∈ σ.given) :
    Recorded { σ with toHandedOverlay := σ.toHandedOverlay.exec c } := by
  have hstep := σ.toHandedOverlay.rewires_exec c
  -- a subscription that clients have not been given is an old one, or has the next number
  suffices hnew : ∀ ov, σ.overlay.Rewires c ov → ov.Recorded ∧
      σ.overlay.watchers.next ≤ ov.watchers.next ∧
      ∀ s ∈ ov.relays, s ∈ σ.overlay.relays ∨ s.id = σ.overlay.watchers.next by
    obtain ⟨ho, hnext, hrelays⟩ := hnew _ hstep
    refine ⟨ho, fun id hid => Nat.lt_of_lt_of_le (h.below id hid) hnext, fun id hid s hs => ?_⟩
    rcases hrelays s hs with hs | hs
    · exact h.given id hid s hs
    · rw [hs]
      exact Nat.ne_of_gt (h.below id hid)
  intro ov hov
  cases hov with
  | keeps hsame =>
    refine ⟨h.overlay.same hsame, Nat.le_of_eq (by rw [hsame.watchers]), ?_⟩
    rw [hsame.relays]
    exact fun s hs => .inl hs
  | forwards file n _ hsame =>
    refine ⟨(h.overlay.forward file n).same hsame, ?_, ?_⟩
    · rw [hsame.watchers, Overlay.next_forward]
      exact Nat.le_succ _
    · rw [hsame.relays, h.overlay.relays_forward]
      intro s hs
      refine (List.mem_append.1 hs).imp (fun hs => (List.mem_filter.1 hs).1) fun hs => ?_
      rw [List.mem_singleton.1 hs]
  | closes file hsame =>
    have hnext := Overlay.next_stopForwarding σ.overlay file
    refine ⟨(h.overlay.stopForwarding file).same hsame, Nat.le_of_eq ?_, ?_⟩
    · rw [hsame.watchers, hnext]
    · rw [hsame.relays, (h.overlay.relays_stopForwarding file).1]
      exact fun s hs => .inl (List.mem_filter.1 hs).1
  | shutdown =>
    exact ⟨⟨rfl, List.nodup_nil, Watchers.numbered_clear _⟩, Nat.le_refl _, by simp⟩
  | watch file => exact absurd rfl (hwatch file)
  | unwatch id =>
    have hno := h.given id (hgiven id rfl)
    refine ⟨h.overlay.unwatch hno, Nat.le_refl _, ?_⟩
    rw [Overlay.relays_unwatch hno]
    exact fun s hs => .inl hs

theorem Recorded.exec (h : σ.Recorded) (c : Command) : (σ.exec c).Recorded := by
  cases c with
  | watch file =>
    obtain ⟨hbelow, hgiven⟩ := h.overlay.given_watch h.below h.given file
    exact ⟨h.overlay.watch file, hbelow, hgiven⟩
  | unwatch id =>
    simp only [SubscribedOverlay.exec]
    split
    · next hid => exact h.handed (by simp) (by simpa using hid)
    · exact h
  | _ => exact h.handed (by simp) (by simp)

theorem Recorded.run (h : σ.Recorded) (commands : List Command) : (σ.run commands).Recorded := by
  induction commands generalizing σ with
  | nil => exact h
  | cons c commands ih => exact ih (h.exec c)

theorem sound_exec (h : σ.Sound) (c : Command) : (σ.exec c).Sound := by
  rcases σ.exec_cases c with hsame | ⟨hexec, -⟩
  · rw [hsame]
    exact h
  · rw [hexec]
    exact h.exec c

theorem sound_run (h : σ.Sound) (commands : List Command) : (σ.run commands).Sound := by
  induction commands generalizing σ with
  | nil => exact h
  | cons c commands ih => exact ih (sound_exec h c)

def Linked (σ : SubscribedOverlay) (file : String) (n : Nat) : Prop :=
  σ.overlay.workspace.get? file = some n ∧ σ.overlay.Connected file n

theorem Linked.exec (hl : σ.Linked file n) (h : σ.Recorded) {c : Command} (hc : ¬ c.Ends file) :
    (σ.exec c).Linked file n := by
  obtain ⟨hn, hconn⟩ := hl
  rcases σ.exec_cases c with hsame | ⟨hexec, hgiven⟩
  · rw [hsame]
    exact ⟨hn, hconn⟩
  unfold Linked
  rw [hexec]
  refine ⟨HandedOverlay.get?_exec hn hc, ?_⟩
  have hstep := σ.toHandedOverlay.rewires_exec c
  generalize (σ.toHandedOverlay.exec c).overlay = ov at hstep
  cases hstep with
  | keeps hsame => exact hsame.connected.2 hconn
  | forwards other m hnew hsame =>
    have hne : file ≠ other := by
      rintro rfl
      rcases hnew with hnew | hnew
      · exact absurd (hn.symm.trans hnew) (Option.some_ne_none n)
      · exact hconn.lookup_ne_none h.overlay hnew
    refine hsame.connected.2 (hconn.of_relays fun s hs hfile => ?_)
    rw [h.overlay.relays_forward]
    exact List.mem_append_left _ (List.mem_filter.2 ⟨hs, by simpa [hfile] using hne⟩)
  | closes other hsame =>
    have hne : ¬ other = file := hc
    refine hsame.connected.2 (hconn.of_relays fun s hs hfile => ?_)
    rw [(h.overlay.relays_stopForwarding other).1]
    exact List.mem_filter.2 ⟨hs, by simpa [hfile] using Ne.symm hne⟩
  | shutdown => exact absurd trivial hc
  | watch other =>
    refine hconn.of_relays fun s hs _ => ?_
    rwa [Overlay.relays_watch]
  | unwatch id =>
    refine hconn.of_relays fun s hs _ => ?_
    rwa [Overlay.relays_unwatch (h.given id (hgiven id rfl))]

theorem Linked.run (hl : σ.Linked file n) (h : σ.Recorded) {commands : List Command}
    (hc : ∀ c ∈ commands, ¬ c.Ends file) : (σ.run commands).Linked file n := by
  induction commands generalizing σ with
  | nil => exact hl
  | cons c commands ih =>
    have hstep := hl.exec h (hc c List.mem_cons_self)
    exact ih hstep (h.exec c) fun c' hc' => hc c' (List.mem_cons_of_mem _ hc')

/-- After any commands to the overlay, to the store behind it and to the documents: a file that is
opened from the host is connected if it was not open, and a file that is opened with a text is
connected if no subscription was on record for it; otherwise it is connected if it was connected
already. A connection lasts until the file is closed, whatever else is done. As long as there is one,
the document takes every edit of the file that its text can take; and it takes none as long as no
subscription leads to its text. -/
theorem edits_reach_connected (o : Options) (commands : List Command) :
    let σ := (start o).run commands
    let ov := σ.overlay
    (∀ host file n, (ov.openFile host file).1 = .ok n →
      let after := (ov.openFile host file).2
      after.workspace.get? file = some n ∧
        (after.Connected file n ↔ ov.workspace.get? file = none ∨ ov.Connected file n)) ∧
    (∀ file text version,
      let p := ov.openText file text version
      p.2.workspace.get? file = some p.1 ∧
        (p.2.Connected file p.1 ↔ ov.forwarding.lookup file = none ∨ ov.Connected file p.1)) ∧
    ∀ file n, ov.workspace.get? file = some n →
      (ov.Connected file n → ∀ rest : List Command, (∀ c ∈ rest, ¬ c.Ends file) →
        let later := (σ.run rest).overlay
        later.workspace.get? file = some n ∧ later.Connected file n) ∧
      ∃ d, ov.workspace.document? n = some d ∧ ∀ host changes version s,
        d.source.edit changes version = .ok s →
        let after := (ov.hostEdit host file changes version).overlay.workspace.document? n
        (ov.Connected file n → after.map (·.source) = some s) ∧
        (¬ ov.Reached n → after.map (·.source) = some d.source) := by
  intro σ ov
  have h : σ.Recorded := (recorded_start o).run commands
  have hsound : (start o).Sound := HandedOverlay.sound_start o
  obtain ⟨L, hL, -⟩ := sound_run hsound commands
  refine ⟨fun host file n hn => h.overlay.connected_openFile hn, h.overlay.connected_openText,
    fun file n hn => ⟨fun hc rest hrest => ?_, ?_⟩⟩
  · exact Linked.run ⟨hn, hc⟩ h hrest
  · obtain ⟨d, hd, -, ha⟩ := hL.1.file_of_get? hn
    refine ⟨d, hd, fun host changes version s hok => ⟨fun hc => ?_, fun hno => ?_⟩⟩
    · obtain ⟨e, he, rfl⟩ := hc.source_hostEdit ha hd hok host
      rw [he, Option.map_some]
    · obtain ⟨e, he, hes⟩ := Overlay.source_hostEdit_of_not_reached hno hd host
      rw [he, Option.map_some, hes]

/-- An edit reaches a file that was opened here. It does not reach one that was open in the store
before, nor one that was closed in the store and opened here again. -/
theorem edits_reach_connected_opened :
    let host : Host := ⟨fun _ => true, fun _ => .ok "a"⟩
    let changes : List Change := [⟨none, "b"⟩]
    let state := (start ⟨fun _ => {}, .empty, none⟩).run
    let opened := state [.openFile host "/src/Foo.vue"]
    let known := state [.storeOpen "/src/Foo.vue" "a" 0, .openFile host "/src/Foo.vue"]
    let again := state [.openText "/src/Foo.vue" "a" 0, .storeClose "/src/Foo.vue",
      .openText "/src/Foo.vue" "a" 0]
    let after := fun (σ : SubscribedOverlay) n =>
      ((σ.overlay.hostEdit host "/src/Foo.vue" changes 1).overlay.workspace.document? n).map
        (·.source)
    (⟨"a", 0⟩ : Source).edit changes 1 = .ok ⟨"b", 1⟩ ∧
      opened.overlay.workspace.get? "/src/Foo.vue" = some 0 ∧ after opened 0 = some ⟨"b", 1⟩ ∧
      known.overlay.workspace.get? "/src/Foo.vue" = some 0 ∧ after known 0 = some ⟨"a", 0⟩ ∧
      again.overlay.workspace.get? "/src/Foo.vue" = some 1 ∧ after again 1 = some ⟨"a", 0⟩ := by
  intro host changes state opened known again after
  have hok : (⟨"a", 0⟩ : Source).edit changes 1 = .ok ⟨"b", 1⟩ := by
    simp [Source.edit, applyAll, Change.apply, changes]
  have hopened : opened.overlay.workspace.get? "/src/Foo.vue" = some 0 := rfl
  have hknown : known.overlay.workspace.get? "/src/Foo.vue" = some 0 := rfl
  have hagain : again.overlay.workspace.get? "/src/Foo.vue" = some 1 := rfl
  refine ⟨hok, hopened, ?_, hknown, ?_, hagain, ?_⟩
  · obtain ⟨-, -, hall⟩ := edits_reach_connected ⟨fun _ => {}, .empty, none⟩
      [.openFile host "/src/Foo.vue"]
    obtain ⟨-, d, hd, hedit⟩ := hall "/src/Foo.vue" 0 hopened
    obtain rfl : _ = d := Option.some.inj hd
    refine (hedit host changes 1 ⟨"b", 1⟩ hok).1 ?_
    exact ⟨⟨0, "/src/Foo.vue", .composite 0⟩, List.mem_singleton_self _, rfl⟩
  · obtain ⟨-, -, hall⟩ := edits_reach_connected ⟨fun _ => {}, .empty, none⟩
      [.storeOpen "/src/Foo.vue" "a" 0, .openFile host "/src/Foo.vue"]
    obtain ⟨-, d, hd, hedit⟩ := hall "/src/Foo.vue" 0 hknown
    obtain rfl : _ = d := Option.some.inj hd
    refine (hedit host changes 1 ⟨"b", 1⟩ hok).2 ?_
    rintro ⟨t, ht, -⟩
    exact absurd ht List.not_mem_nil
  · obtain ⟨-, -, hall⟩ := edits_reach_connected ⟨fun _ => {}, .empty, none⟩
      [.openText "/src/Foo.vue" "a" 0, .storeClose "/src/Foo.vue", .openText "/src/Foo.vue" "a" 0]
    obtain ⟨-, d, hd, hedit⟩ := hall "/src/Foo.vue" 1 hagain
    obtain rfl : _ = d := Option.some.inj hd
    refine (hedit host changes 1 ⟨"b", 1⟩ hok).2 ?_
    -- the one subscription leads to the first text
    rintro ⟨t, ht, m, htm, htext⟩
    obtain rfl : t = ⟨0, "/src/Foo.vue", .composite 0⟩ := List.mem_singleton.1 ht
    obtain rfl : 0 = m := Listener.composite.inj htm
    exact absurd htext (by decide)

end SubscribedOverlay

end BlockLens
