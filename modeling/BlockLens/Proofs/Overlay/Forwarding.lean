import BlockLens.Proofs.Overlay.Connected
import Mathlib.Logic.Function.Iterate

set_option autoImplicit false

namespace BlockLens

namespace Overlay

variable {ov : Overlay}

theorem filter_forFile (ov : Overlay) (file : String) :
    (ov.watchers.forFile file).filter (·.listener ≠ .client) = ov.relays.filter (·.file = file) := by
  simp only [Watchers.forFile, relays, List.filter_filter, Bool.and_comm]

theorem InStep.listeners (h : ov.InStep) (file : String) :
    (ov.relays.filter (·.file = file)).map (·.listener) =
      (ov.workspace.get? file).toList.map .composite := by
  have hkeys : (ov.workspace.opened.map (·.1)).Nodup := h.map_fst_opened ▸ h.files
  have hfilter := congrArg (List.filter fun p : String × Listener => p.1 = file) h.opened
  rw [List.filter_map, List.filter_map] at hfilter
  have hsnd := congrArg (List.map Prod.snd) hfilter
  simp only [List.map_map] at hsnd
  refine hsnd.symm.trans ?_
  have hopened := congrArg (List.map (Listener.composite ∘ Prod.snd)) (filter_eq_toList_lookup hkeys file)
  rw [List.map_map] at hopened
  exact hopened

theorem InStep.filter_forwarding (h : ov.InStep) (file : String) :
    ov.forwarding.filter (·.1 = file) =
      (ov.relays.filter (·.file = file)).map fun s => (file, s.id) := by
  rw [h.forwarding, List.filter_map]
  refine List.map_congr_left fun s hs => ?_
  have hfile : s.file = file := by simpa using (List.mem_filter.1 hs).2
  rw [hfile]

theorem InStep.countP_forFile (h : ov.InStep) (file : String) (n : Nat) :
    (ov.watchers.forFile file).countP (·.listener = .composite n) =
      if ov.workspace.get? file = some n then 1 else 0 := by
  have hrelays : (ov.watchers.forFile file).countP (·.listener = .composite n) =
      ((ov.relays.filter (·.file = file)).map (·.listener)).countP (· = .composite n) := by
    rw [← filter_forFile, List.countP_map, List.countP_filter]
    refine List.countP_congr fun s _ => ?_
    simp +contextual [Function.comp]
  rw [hrelays, h.listeners]
  cases ov.workspace.get? file with
  | none => simp
  | some m => by_cases hm : m = n <;> simp [hm]

/-! ### Deliveries -/

/-- A document takes an edit as often as subscriptions lead to it. -/
theorem document?_deliverAll (changes : List Change) (version : Int)
    (subs : List (Subscription Listener)) {ov : Overlay} (hw : ov.workspace.Apart) {n : Nat}
    (ha : ov.workspace.isAlive n = true) {d : Document} (hd : ov.workspace.document? n = some d) :
    (deliverAll changes version subs ov).2.workspace.document? n =
      some ((fun d => (d.update changes version).2)^[subs.countP (·.listener = .composite n)] d) := by
  induction subs generalizing ov d with
  | nil => exact hd
  | cons s subs ih =>
    have hdeliver := (works_deliver changes version ov s).workspace
    have ih := fun {e} => ih (d := e) (hdeliver.apart hw) ((hdeliver.isAlive n).trans ha)
    rw [deliverAll]
    by_cases hs : s.listener = .composite n
    · rw [List.countP_cons_of_pos (by simpa using hs), Function.iterate_succ_apply]
      refine ih ?_
      simp only [deliver, hs, ha, if_true, withWorkspace, Workspace.withDocument, hd]
      exact Workspace.document?_put_self hd _
    · rw [List.countP_cons_of_neg (by simpa using hs)]
      refine ih (hdeliver.document_eq hw ?_ hd)
      rintro a ⟨⟨t, ht, hn⟩, -⟩
      exact hs (List.mem_singleton.1 ht ▸ hn)

theorem InStep.isAlive (h : ov.InStep) {file : String} {n : Nat} (hn : ov.workspace.get? file = some n) :
    ov.workspace.isAlive n = true := by
  have hm : (file, n) ∈ ov.workspace.opened :=
    (lookup_eq_some_iff_mem (h.map_fst_opened ▸ h.files)).1 hn
  simp only [Workspace.isAlive, Bool.or_eq_true, List.any_eq_true]
  exact .inl ⟨_, hm, by simp⟩

theorem InStep.document?_notify (h : ov.InStep) {file : String} {n : Nat}
    (hn : ov.workspace.get? file = some n) {d : Document} (hd : ov.workspace.document? n = some d)
    (changes : List Change) (version : Int) :
    (ov.notify file changes version).overlay.workspace.document? n =
      some (d.update changes version).2 := by
  have hdeliver := document?_deliverAll changes version (ov.watchers.forFile file) h.apart
    (h.isAlive hn) hd
  rw [h.countP_forFile, if_pos hn] at hdeliver
  exact hdeliver

/-- No two names lead to one composite. -/
theorem Sound.get?_injective {L : Nat → Ledger} (h : ov.Sound L) {a b : String} {n : Nat}
    (ha : ov.workspace.get? a = some n) (hb : ov.workspace.get? b = some n) : a = b := by
  obtain ⟨d, hd, hda, -⟩ := h.1.file_of_get? ha
  obtain ⟨e, he, heb, -⟩ := h.1.file_of_get? hb
  rw [hd, Option.some.injEq] at he
  subst he
  exact hda.symm.trans heb

/-! ### The round that follows an edit -/

namespace Round

variable {R : Round} {live : List BlockDocument}

theorem exists_holding (hlog : R.document.composite.evicted = []) {a : Action} (ha : a.Quiet)
    (live : List BlockDocument) (created : Nat) :
    ∃ extra created', (a.run R.options (R.holding live created)).2 =
      R.holding (live ++ extra) created' := by
  have hclean : (R.holding live created).refresh R.options = R.holding live created :=
    Document.refresh_of_clean R.clean
  have hsame : ∃ extra created', R.holding live created = R.holding (live ++ extra) created' :=
    ⟨[], created, by rw [List.append_nil]⟩
  have hdocument : ∀ s, ∃ extra created',
      ((R.holding live created).blockDocument R.options s).2 = R.holding (live ++ extra) created' := by
    intro s
    obtain ⟨extra, created', hd, -⟩ :=
      Composite.document_spec R.options (R.holding live created).composite s
    refine ⟨extra, created', ?_⟩
    simp only [Document.blockDocument, hclean, hd]
    rfl
  cases a with
  | update | markDirty => exact ha.elim
  | outline | mainModule | hasDocument =>
    simp only [Action.run, Document.mainModule, Document.hasDocument, hclean]
    exact hsame
  | drainEvicted =>
    refine ⟨[], created, ?_⟩
    simp only [Action.run, Document.drainEvicted, hclean]
    simp only [holding, List.append_nil, hlog]
  | document s => exact hdocument s
  | documentAt offset =>
    simp only [Action.run, Document.documentAt, hclean]
    split
    · exact hdocument _
    · exact hsame
  | documentById name =>
    simp only [Action.run, Document.documentById]
    split
    · exact hsame
    · split
      · exact hsame
      · split
        · exact hdocument _
        · exact hsame

/-- A name that was read is read as the same text again, whatever was made since. -/
theorem Settled.read {ov : Overlay} (h : R.Settled live (ofWorkspace ov.workspace)) (host : Host)
    {name : String} (hm : MadeFrom R.file name) :
    ∃ live', R.Settled live' (ofWorkspace (ov.read host name).2.workspace) ∧
      ∀ extra (ov' : Overlay), R.Settled (live' ++ extra) (ofWorkspace ov'.workspace) →
        (ov'.read host name).1 = (ov.read host name).1 := by
  rcases hm with hk | ⟨i, hk, hi⟩
  · have hmain : ∀ live (ov : Overlay), R.Settled live (ofWorkspace ov.workspace) →
        ov.read host name = (some (Render.withVersion R.document.composite.main.text
          R.document.source.version), ov) := by
      intro live ov h
      obtain ⟨created, hd⟩ := h.document
      have hd : ov.workspace.document? R.number = some (R.holding live created) := hd
      have hopen : ov.workspace.get? R.file = some R.number := h.isOpen
      have hclean : (R.holding live created).composite.dirty = false := R.clean
      simp only [Overlay.read, hk, withWorkspace, Workspace.withOpen, hopen, Workspace.withDocument, hd,
        Overlay.readMain, Document.mainModule, Document.refresh_of_clean hclean,
        Workspace.put_self hd]
      rfl
    refine ⟨live, ?_, fun extra ov' h' => ?_⟩
    · rw [hmain live ov h]
      exact h
    · rw [hmain _ ov' h', hmain live ov h]
  · obtain ⟨hv, -, -⟩ := Identifier.parse_eq_ok (FileKind.parse_of_classify hk)
    obtain ⟨s, hs⟩ := Option.isSome_iff_exists.1 (Identifier.isSome_slot?_of_validate hv)
    have hp := FileKind.parse_of_classify hk
    have hblock : ∀ ov : Overlay, ov.read host name = ((Overlay.readBlock R.file name ov.workspace).1,
        { ov with workspace := (Overlay.readBlock R.file name ov.workspace).2 }) := by
      intro ov
      simp only [Overlay.read, hk, hi, withWorkspace]
    obtain ⟨created, htext, hset⟩ := h.readBlock hp hi hs
    refine ⟨((R.holding live created).composite.document R.options s).2.live, ?_,
      fun extra ov' h' => ?_⟩
    · rw [hblock]
      exact hset
    · obtain ⟨created', htext', -⟩ := h'.readBlock hp hi hs
      rw [shown?_again] at htext'
      rw [hblock, hblock]
      exact htext'.trans htext.symm

structure Steady (R : Round) (live : List BlockDocument) (ov : Overlay) : Prop where
  inStep : ov.InStep
  settled : R.Settled live (ofWorkspace ov.workspace)
  log : R.document.composite.evicted = []

namespace Steady

variable {ov ov' : Overlay}

theorem sound (h : R.Steady live ov) : ∃ L, ov.Sound L := by
  obtain ⟨L, hL, -⟩ := h.settled.sound
  exact ⟨L, hL, h.inStep.numbered⟩

theorem works {T : Nat → Action → Prop} (h : R.Steady live ov) (hw : Works T ov ov')
    (ht : ∀ a, T R.number a → a.Quiet) (hs : ∀ L, ov.Sound L → ov'.Stays L) :
    ∃ extra, R.Steady (live ++ extra) ov' := by
  obtain ⟨created, hd⟩ := h.settled.document
  have hoptions : ov.workspace.options = R.options := h.settled.options
  obtain ⟨e, he, extra, created', rfl⟩ := hw.workspace.document h.inStep.apart
    (P := fun e => ∃ extra created', e = R.holding (live ++ extra) created')
    (fun a ha d hd => by
      obtain ⟨extra, created, rfl⟩ := hd
      rw [hoptions]
      obtain ⟨more, created', hrun⟩ := exists_holding h.log (ht a ha) (live ++ extra) created
      exact ⟨extra ++ more, created', by rw [hrun, List.append_assoc]⟩)
    hd ⟨[], created, by rw [List.append_nil]⟩
  obtain ⟨L, hL⟩ := h.sound
  obtain ⟨L', -, hL'⟩ := hs L hL
  refine ⟨extra, h.inStep.works hw, ⟨?_, h.settled.watchers, ⟨L', hL'.1, Watchers.numbered_empty⟩, ?_,
    created', he⟩, h.log⟩
  · exact hw.workspace.frame.1.trans hoptions
  · exact (hw.workspace.get? R.file).trans h.settled.isOpen

theorem quiet_of_news (h : R.Steady live ov) {name : String} {version : Int} {a : Action}
    (ha : ov.News R.file name version R.number a) : a.Quiet := by
  obtain ⟨L, hL⟩ := h.sound
  rcases ha with hr | ⟨hm, text, he⟩
  · exact hr.2
  · rw [hL.get?_injective (h.inStep.get?_of_edits he) h.settled.isOpen] at hm
    exact absurd hm (not_madeFrom_self R.file)

theorem not_reads (h : R.Steady live ov) {m : Nat} (hm : m ≠ R.number) (a : Action) :
    ¬ ov.Reads R.file m a := by
  intro hr
  have hopen : ov.workspace.get? R.file = some R.number := h.settled.isOpen
  rw [hr.1, Option.some.injEq] at hopen
  exact hm hopen

variable {m : Nat} {e : Document}

theorem steady_announce (h : R.Steady live ov) (host : Host) (evicted : List String) (version : Int)
    (names : List String) :
    ∃ extra, R.Steady (live ++ extra) (announce host R.file evicted version names ov).overlay := by
  refine h.works (works_announce host R.file evicted version names ov) ?_ fun L hL =>
    hL.announce host R.file evicted version names
  rintro a ⟨name, -, ha⟩
  exact h.quiet_of_news ha

theorem document?_announce (h : R.Steady live ov) (hm : m ≠ R.number)
    (hd : ov.workspace.document? m = some e) (host : Host) (evicted : List String) (version : Int)
    {names : List String} (hother : ∀ name ∈ names, ov.workspace.get? name ≠ some m) :
    (announce host R.file evicted version names ov).overlay.workspace.document? m = some e := by
  refine (works_announce host R.file evicted version names ov).workspace.document_eq
    h.inStep.apart ?_ hd
  rintro a ⟨name, hname, hr | ⟨-, text, he⟩⟩
  · exact h.not_reads hm a hr
  · exact hother name hname (h.inStep.get?_of_edits he)

theorem notify (h : R.Steady live ov) (hm : m ≠ R.number) (hd : ov.workspace.document? m = some e)
    {name : String} (hname : ov.workspace.get? name = some m) (changes : List Change) (version : Int) :
    let after := (ov.notify name changes version).overlay
    (∃ extra, R.Steady (live ++ extra) after) ∧
      after.workspace.document? m = some (e.update changes version).2 := by
  refine ⟨h.works (works_notify ov name changes version) (fun a he => ?_) fun L hL =>
    hL.notify name changes version, h.inStep.document?_notify hname hd changes version⟩
  have hn := h.inStep.get?_of_edits he
  rw [hname, Option.some.injEq] at hn
  exact absurd hn hm

/-- One who is open under the name in question is sent its text once, or nothing. -/
theorem tell (h : R.Steady live ov) (hm : m ≠ R.number) (hd : ov.workspace.document? m = some e)
    (host : Host) (evicted : List String) (version : Int) {name : String}
    (hname : ov.workspace.get? name = some m) :
    let after := (tell host R.file evicted version name ov).overlay
    ∃ live', R.Steady live' after ∧
      (after.workspace.document? m = some e ∨ MadeFrom R.file name ∧ ∃ text,
        after.workspace.document? m = some (e.update [⟨none, text⟩] version).2 ∧
        ∀ extra ov', R.Steady (live' ++ extra) ov' → (ov'.read host name).1 = some text) := by
  intro after
  by_cases hmade : MadeFrom R.file name
  case neg =>
    have hsame : after = ov := by
      simp only [after, tell_of_not_madeFrom host evicted version hmade ov]
    rw [hsame]
    exact ⟨live, h, .inl hd⟩
  have hnews := works_needsNews ov R.file evicted name
  obtain ⟨made, h₁⟩ := h.works hnews (fun a ha => ha.2) fun L hL => hL.needsNews R.file evicted name
  have hd₁ := hnews.workspace.document_eq h.inStep.apart (h.not_reads hm) hd
  cases hp : (ov.needsNews R.file evicted name).1 with
  | false =>
    have hsame : after = (ov.needsNews R.file evicted name).2 := by
      simp only [after, Overlay.tell, hp, Bool.false_eq_true, if_false]
    rw [hsame]
    exact ⟨_, h₁, .inl hd₁⟩
  | true =>
    obtain ⟨live₂, hset, hagain⟩ := h₁.settled.read host hmade
    have hread := works_read (ov.needsNews R.file evicted name).2 host name
    rw [hmade.realName, hnews.reads] at hread
    have h₂ : R.Steady live₂ (Overlay.read host name (ov.needsNews R.file evicted name).2).2 :=
      ⟨h₁.inStep.works hread, hset, h.log⟩
    have hd₂ := hread.workspace.document_eq h₁.inStep.apart (h.not_reads hm) hd₁
    have hname₂ := (hread.workspace.get? name).trans ((hnews.workspace.get? name).trans hname)
    simp only [after, Overlay.tell, hp, if_true]
    split
    · next text htext =>
      obtain ⟨⟨more, h₃⟩, hsent⟩ := h₂.notify hm hd₂ hname₂ [⟨none, text⟩] version
      refine ⟨_, h₃, .inr ⟨hmade, text, hsent, ?_⟩⟩
      intro extra ov' h'
      rw [← htext]
      exact hagain (more ++ extra) ov' (List.append_assoc .. ▸ h'.settled)
    · exact ⟨live₂, h₂, .inl hd₂⟩

theorem announce (h : R.Steady live ov) (hm : m ≠ R.number) (hd : ov.workspace.document? m = some e)
    (host : Host) (evicted : List String) (version : Int) {names : List String}
    (hnames : names.Pairwise (· < ·)) {name : String} (hname : ov.workspace.get? name = some m) :
    let after := (announce host R.file evicted version names ov).overlay
    after.workspace.document? m = some e ∨ MadeFrom R.file name ∧ ∃ text,
      (after.read host name).1 = some text ∧
      after.workspace.document? m = some (e.update [⟨none, text⟩] version).2 := by
  intro after
  obtain ⟨L, hL⟩ := h.sound
  have hother : ∀ {part : List String}, name ∉ part → ∀ x ∈ part, ov.workspace.get? x ≠ some m := by
    intro part hno x hx hxm
    exact hno (hL.get?_injective hxm hname ▸ hx)
  by_cases hmem : name ∈ names
  case neg => exact .inl (h.document?_announce hm hd host evicted version (hother hmem))
  -- the names before and after the one in question do not matter
  obtain ⟨pre, post, rfl, hpost, hpre⟩ := split_of_pairwise hnames hmem
  have hnpre : name ∉ pre := fun hx => String.lt_irrefl _ ((hpre _).1 hx).2
  have hafter : after = _ :=
    (announce_append host R.file evicted version pre (name :: post) ov).2
  rw [announce_cons] at hafter
  obtain ⟨made, h₁⟩ := h.steady_announce host evicted version pre
  have hd₁ := h.document?_announce hm hd host evicted version (hother hnpre)
  have hget := (works_announce host R.file evicted version pre ov).workspace.get?
  obtain ⟨live₂, h₂, htold⟩ := h₁.tell hm hd₁ host evicted version ((hget name).trans hname)
  have hget₂ := fun x => ((works_tell _ host R.file evicted version name).workspace.get? x).trans (hget x)
  have hrest : ∀ x ∈ post, (Overlay.tell host R.file evicted version name
      (Overlay.announce host R.file evicted version pre ov).overlay).overlay.workspace.get? x ≠ some m := by
    intro x hx
    rw [hget₂]
    exact hother hpost x hx
  rw [hafter]
  rcases htold with hsame | ⟨hmade, text, hsent, hread⟩
  · exact .inl (h₂.document?_announce hm hsame host evicted version hrest)
  · obtain ⟨more, h₃⟩ := h₂.steady_announce host evicted version post
    exact .inr ⟨hmade, text, hread more _ h₃,
      h₂.document?_announce hm hsent host evicted version hrest⟩

end Steady

end Round

theorem InStep.steady (h : ov.InStep) {L : Nat → Ledger} (hs : ov.Sound L) {file : String} {n : Nat}
    (hn : ov.workspace.get? file = some n) {changes : List Change} {version : Int} {d : Document}
    (hd : (ov.notify file changes version).overlay.workspace.document? n = some d) :
    let first := (ov.notify file changes version).overlay
    let o := ov.workspace.options
    ∃ R live, R.file = file ∧ R.number = n ∧ R.document.source = d.source ∧
      Round.Steady R live
        { first with workspace := first.workspace.put n (d.drainEvicted o).2 } := by
  intro first o
  have hnotify := works_notify ov file changes version
  have hopen : first.workspace.get? file = some n := (hnotify.workspace.get? file).trans hn
  have hoptions : first.workspace.options = o := hnotify.workspace.frame.1
  obtain ⟨L₁, -, hs₁⟩ := hs.notify file changes version
  obtain ⟨e, he, hfile, -⟩ := hs₁.1.file_of_get? hopen
  rw [hd, Option.some.injEq] at he
  subst he
  obtain ⟨L₂, -, hs₂, -⟩ := hs₁.1.put_run hd .drainEvicted
  have hdrain : first.workspace.Works (fun _ _ => True)
      (first.workspace.put n (Action.drainEvicted.run first.workspace.options d).2) :=
    .act .refl .drainEvicted trivial hd
  rw [hoptions] at hs₂ hdrain
  refine ⟨⟨o, {}, file, n, (d.drainEvicted o).2, Composite.dirty_refresh _ _,
    (Composite.file_refresh _ _).trans hfile, by simp⟩, (d.refresh o).composite.live, rfl, rfl, rfl, ?_⟩
  refine ⟨(h.works hnotify).works ⟨hdrain, rfl, rfl⟩, ?_, rfl⟩
  refine ⟨?_, rfl, ⟨L₂, hs₂, Watchers.numbered_empty⟩, ?_, (d.refresh o).composite.created, ?_⟩
  · exact (Workspace.options_put _ _ _).trans hoptions
  · exact (Workspace.get?_put _ _ _ _).trans hopen
  · exact Workspace.document?_put_self hd _

theorem InStep.document?_drained (h : ov.InStep) {file : String} {n : Nat}
    (hn : ov.workspace.get? file = some n) (changes : List Change) (version : Int) (d : Document)
    {m : Nat} (hm : m ≠ n) {e : Document} (he : ov.workspace.document? m = some e) :
    ((ov.notify file changes version).overlay.workspace.put n d).document? m = some e := by
  have hnotify := works_notify ov file changes version
  rw [Workspace.document?_put_apart (h.works hnotify).apart hm]
  refine hnotify.workspace.document_eq h.apart (fun a ha => ?_) he
  have hmn := h.get?_of_edits ha
  rw [hn, Option.some.injEq] at hmn
  exact hm hmn.symm

/-- The edit of an open file: its document takes the edit once, and another document may be sent the
text of its name. -/
theorem InStep.document?_hostEdit (h : ov.InStep) {L : Nat → Ledger} (hs : ov.Sound L) {file : String}
    {n : Nat} (hn : ov.workspace.get? file = some n) {d : Document}
    (hd : ov.workspace.document? n = some d) (host : Host) (changes : List Change) (version : Int) :
    let after := (ov.hostEdit host file changes version).overlay
    (∃ c, after.workspace.document? n = some ⟨(d.update changes version).2.source, c⟩) ∧
      ∀ m e, m ≠ n → ov.workspace.document? m = some e →
        after.workspace.document? m = some e ∨ ∃ name text, MadeFrom file name ∧
          ov.workspace.get? name = some m ∧ (after.read host name).1 = some text ∧
          after.workspace.document? m = some (e.update [⟨none, text⟩] version).2 := by
  intro after
  have hd₁ := h.document?_notify hn hd changes version
  obtain ⟨R, live, rfl, rfl, hsource, hsteady⟩ := h.steady hs hn hd₁
  have hafter : after = _ := congrArg Notified.overlay (hostEdit_eq hn hd₁ host)
  dsimp only at hafter
  rw [hafter]
  constructor
  · obtain ⟨extra, hset⟩ := hsteady.steady_announce host _ version ov.watchers.files
    obtain ⟨created, hlast⟩ := hset.settled.document
    rw [← hsource]
    exact ⟨_, hlast⟩
  · intro m e hm he
    have he₁ := h.document?_drained hn changes version
      (Document.drainEvicted ov.workspace.options (d.update changes version).2).2 hm he
    have hget := fun d x => (Workspace.get?_put (ov.notify R.file changes version).overlay.workspace
      R.number d x).trans ((works_notify ov R.file changes version).workspace.get? x)
    by_cases hopen : ∃ name, ov.workspace.get? name = some m
    · obtain ⟨name, hname⟩ := hopen
      have hround := hsteady.announce hm he₁ host
        (Document.refresh ov.workspace.options (d.update changes version).2).composite.evicted version
        (pairwise_sortedSet (ov.watchers.live.map (·.file))) ((hget _ name).trans hname)
      refine hround.imp id ?_
      rintro ⟨hmade, text, hread, hsent⟩
      exact ⟨name, text, hmade, hname, hread, hsent⟩
    · refine .inl (hsteady.document?_announce hm he₁ host _ version fun name _ hname => ?_)
      exact hopen ⟨name, (hget _ name).symm.trans hname⟩

end Overlay

theorem Overlay.document?_opening {ov : Overlay} {n : Nat} {d : Document}
    (hd : ov.workspace.document? n = some d) (file text : String) (version : Int) :
    (ov.opening file text version).workspace.document? n = some d := by
  obtain ⟨f, hf, hs, hc⟩ := Workspace.document?_eq_some.1 hd
  refine Workspace.document?_eq_some.2 ⟨f, ?_, ?_, hc⟩
  · exact (List.getElem?_append_left (List.getElem?_eq_some_iff.1 hf).1).trans hf
  · exact (List.getElem?_append_left (List.getElem?_eq_some_iff.1 hs).1).trans hs

namespace Overlay

variable {ov ov' : Overlay} {n : Nat} {d : Document}

/-- A document to which no subscription leads. -/
structure Rests (ov : Overlay) (n : Nat) (d : Document) : Prop where
  document : ov.workspace.document? n = some d
  silent : ∀ s ∈ ov.relays, s.listener ≠ .composite n

theorem Rests.shutdown (hd : ov.workspace.document? n = some d) : ov.shutdown.Rests n d where
  document := hd
  silent _ hs := absurd hs List.not_mem_nil

theorem Rests.works (h : ov.InStep) (hr : ov.Rests n d)
    (hw : Works (fun m _ => ∃ name, ov.workspace.get? name = some m) ov ov') : ov'.Rests n d where
  document := by
    refine hw.workspace.document_eq h.apart ?_ hr.document
    rintro - ⟨name, hname⟩
    obtain ⟨s, hs, -, hn⟩ := h.get?_eq_some.1 hname
    exact hr.silent s hs hn
  silent s hs := by
    refine hr.silent s ?_
    rwa [relays, ← hw.watchers]

theorem Rests.opening (hr : ov.Rests n d) (file text : String) (version : Int) :
    (ov.opening file text version).Rests n d where
  document := document?_opening hr.document file text version
  silent s hs := by
    rw [InStep.relays_opening] at hs
    rcases List.mem_append.1 hs with hs | hs
    · exact hr.silent s hs
    · -- a new composite has a new number
      obtain ⟨f, hf, -, -⟩ := Workspace.document?_eq_some.1 hr.document
      obtain ⟨hlt, -⟩ := List.getElem?_eq_some_iff.1 hf
      rw [List.mem_singleton.1 hs, Ne, Listener.composite.injEq]
      exact Nat.ne_of_gt hlt

theorem Rests.close (h : ov.InStep) (hr : ov.Rests n d) (file : String) :
    (ov.close file).2.Rests n d where
  document := (congrArg (·.document? n) (workspace_stopForwarding ov file)).trans hr.document
  silent s hs := by
    rw [h.relays_close] at hs
    exact hr.silent s (List.mem_filter.1 hs).1

theorem Rests.unwatch (hr : ov.Rests n d) (id : Nat) : (ov.unwatch id).Rests n d where
  document := hr.document
  silent s hs := by
    rw [relays_unsubscribe] at hs
    exact hr.silent s (List.mem_filter.1 hs).1

theorem Rests.watch (hr : ov.Rests n d) (file : String) : (ov.watch file).2.Rests n d where
  document := hr.document
  silent s hs := by
    rw [relays_watch] at hs
    exact hr.silent s hs

theorem Rests.turn (h : ov.InStep) (hr : ov.Rests n d) {c : Command} (ht : ov.Turns c ov') :
    ov'.Rests n d := by
  cases ht with
  | works hw => exact hr.works h hw
  | opens file text version _ => exact hr.opening file text version
  | close file => exact hr.close h file
  | shutdown => exact .shutdown hr.document
  | watch file => exact hr.watch file
  | unwatch id => exact hr.unwatch id
  | hold | releaseAll => exact ⟨hr.document, hr.silent⟩

theorem InStep.rests (h : ov.InStep) {L : Nat → Ledger} (hL : ov.Sound L) {file : String}
    (hn : ov.workspace.get? file = some n) (hd : ov.workspace.document? n = some d) :
    (ov.close file).2.Rests n d where
  document := (congrArg (·.document? n) (workspace_stopForwarding ov file)).trans hd
  silent s hs hsn := by
    rw [h.relays_close] at hs
    obtain ⟨hs, hfile⟩ := List.mem_filter.1 hs
    have hopen := h.get?_eq_some.2 ⟨s, hs, rfl, hsn⟩
    simp [hL.get?_injective hopen hn] at hfile

end Overlay

namespace SubscribedOverlay

structure InStep (σ : SubscribedOverlay) : Prop where
  overlay : σ.overlay.InStep
  recorded : σ.Recorded
  sound : σ.Sound

variable {σ : SubscribedOverlay} {n : Nat} {d : Document}

theorem inStep_start (o : Options) : (start o).InStep where
  overlay := Overlay.inStep_empty _ rfl rfl rfl
  recorded := recorded_start o
  sound := HandedOverlay.sound_start o

theorem InStep.exec (h : σ.InStep) {c : Command} (hc : ¬ c.Bypasses) : (σ.exec c).InStep where
  overlay := by
    rcases σ.exec_cases c with hsame | ⟨hexec, hgiven⟩
    · rw [hsame]
      exact h.overlay
    · rw [hexec]
      exact h.overlay.turn (HandedOverlay.turns_exec h.overlay hc) fun id hid =>
        h.recorded.given id (hgiven id hid)
  recorded := h.recorded.exec c
  sound := sound_exec h.sound c

theorem InStep.run (h : σ.InStep) {commands : List Command} (hc : ∀ c ∈ commands, ¬ c.Bypasses) :
    (σ.run commands).InStep := by
  induction commands generalizing σ with
  | nil => exact h
  | cons c commands ih =>
    exact ih (h.exec (hc c List.mem_cons_self)) fun c' hc' => hc c' (List.mem_cons_of_mem _ hc')

theorem rests_exec (h : σ.InStep) (hr : σ.overlay.Rests n d) {c : Command} (hc : ¬ c.Bypasses) :
    (σ.exec c).overlay.Rests n d := by
  rcases σ.exec_cases c with hsame | ⟨hexec, -⟩
  · rw [hsame]
    exact hr
  · rw [hexec]
    exact hr.turn h.overlay (HandedOverlay.turns_exec h.overlay hc)

theorem rests_run (h : σ.InStep) (hr : σ.overlay.Rests n d) {commands : List Command}
    (hc : ∀ c ∈ commands, ¬ c.Bypasses) : (σ.run commands).overlay.Rests n d := by
  induction commands generalizing σ with
  | nil => exact hr
  | cons c commands ih =>
    have hfirst := hc c List.mem_cons_self
    exact ih (h.exec hfirst) (rests_exec h hr hfirst) fun c' hc' => hc c' (List.mem_cons_of_mem _ hc')

/-! ### Forwarding -/

/-- After any commands to the overlay alone: the subscriptions by which edits of a file are forwarded
are those on record for it, there is one if the file is open and none otherwise, and it leads to the
open document. So the open document takes an edit of the file once, and keeps its text and version if
the edit is refused. No other document changes, unless it is open under the name of what is made from
the file: such a one may be given, once, the text that the name is then read as. A document that is
closed stays as it is, whatever is done after. -/
theorem forwarded_once (o : Options) {commands : List Command} (hc : ∀ c ∈ commands, ¬ c.Bypasses)
    (file : String) :
    let σ := (start o).run commands
    let ov := σ.overlay
    let forwarders := (ov.watchers.forFile file).filter (·.listener ≠ .client)
    forwarders.map (·.listener) = (ov.workspace.get? file).toList.map .composite ∧
    ov.forwarding.filter (·.1 = file) = (forwarders.map fun s => (file, s.id)) ∧
    ∀ n, ov.workspace.get? file = some n → ∃ d, ov.workspace.document? n = some d ∧
      (∀ host changes version,
        let after := (ov.hostEdit host file changes version).overlay
        (∃ c, after.workspace.document? n =
          some ⟨(d.source.edit changes version).toOption.getD d.source, c⟩) ∧
        ∀ m e, m ≠ n → ov.workspace.document? m = some e →
          after.workspace.document? m = some e ∨ ∃ name text, MadeFrom file name ∧
            ov.workspace.get? name = some m ∧ (after.read host name).1 = some text ∧
            after.workspace.document? m = some (e.update [⟨none, text⟩] version).2) ∧
      ∀ c rest, c = .close file ∨ c = .shutdown → (∀ c' ∈ rest, ¬ c'.Bypasses) →
        (σ.run (c :: rest)).overlay.workspace.document? n = some d := by
  intro σ ov forwarders
  have h : σ.InStep := (inStep_start o).run hc
  obtain ⟨L, hL, -⟩ := h.sound
  refine ⟨?_, ?_, fun n hn => ?_⟩
  · simp only [forwarders, Overlay.filter_forFile]
    exact h.overlay.listeners file
  · simp only [forwarders, Overlay.filter_forFile]
    exact h.overlay.filter_forwarding file
  obtain ⟨d, hd, -, -⟩ := hL.1.file_of_get? hn
  refine ⟨d, hd, fun host changes version => ?_, fun c rest hend hrest => ?_⟩
  · rw [← Document.source_update]
    exact h.overlay.document?_hostEdit hL hn hd host changes version
  · rcases hend with rfl | rfl
    · have hrests : (σ.exec (.close file)).overlay.Rests n d := h.overlay.rests hL hn hd
      exact (rests_run (h.exec id) hrests hrest).document
    · have hrests : (σ.exec .shutdown).overlay.Rests n d := .shutdown hd
      exact (rests_run (h.exec id) hrests hrest).document

theorem forwarded_once_opened :
    let host : Host := ⟨fun _ => false, fun _ => .error []⟩
    let σ := (start ⟨fun _ => {}, .empty, none⟩).run [.openText "/src/Foo.vue" "x" 1,
      .watch "/src/Foo.vue", .unwatch 1, .hold 0]
    let edit := σ.overlay.hostEdit host "/src/Foo.vue" [⟨none, "y"⟩] 2
    let closed := σ.run [.close "/src/Foo.vue", .hostEdit host "/src/Foo.vue" [⟨none, "y"⟩] 2]
    σ.overlay.workspace.get? "/src/Foo.vue" = some 0 ∧
      (edit.overlay.workspace.document? 0).map (·.source) = some ⟨"y", 2⟩ ∧
      (closed.overlay.workspace.document? 0).map (·.source) = some ⟨"x", 1⟩ := by
  intro host σ edit closed
  have hopen : σ.overlay.workspace.get? "/src/Foo.vue" = some 0 := rfl
  have hc : ∀ c ∈ [Command.openText "/src/Foo.vue" "x" 1, .watch "/src/Foo.vue", .unwatch 1, .hold 0],
      ¬ c.Bypasses := by simp [Command.Bypasses]
  obtain ⟨-, -, hall⟩ := forwarded_once ⟨fun _ => {}, .empty, none⟩ hc "/src/Foo.vue"
  obtain ⟨d, hd, hedit, hclose⟩ := hall 0 hopen
  obtain rfl : _ = d := Option.some.inj hd
  obtain ⟨⟨c, hc⟩, -⟩ := hedit host [⟨none, "y"⟩] 2
  refine ⟨hopen, ?_, ?_⟩
  · refine (congrArg (Option.map (·.source)) hc).trans ?_
    rfl
  · have hlast := hclose (.close "/src/Foo.vue") [.hostEdit host "/src/Foo.vue" [⟨none, "y"⟩] 2]
      (.inl rfl) (by simp [Command.Bypasses])
    exact congrArg (Option.map (·.source)) hlast

def namesake : Overlay :=
  ((start ⟨fun _ => {}, .empty, none⟩).run [.openText "/src/Foo.vue" "x" 1,
    .openText "/src/Foo.vue.ts" "x" 1]).overlay

def echo : String :=
  "const _Self = \x7b\x7d as any\nexport type __Props = \x7b\x7d\nconst Foo = _Self\n" ++
    "export default Foo\n//# version 2"

/-- The document under the name of the main module takes the changes, too. -/
theorem hostEdit_namesake :
    let host : Host := ⟨fun _ => false, fun _ => .error []⟩
    let changes : List Change := [⟨none, echo⟩]
    let after := (namesake.hostEdit host "/src/Foo.vue" changes 2).overlay
    namesake.workspace.get? "/src/Foo.vue" = some 0 ∧
      (namesake.workspace.document? 1).map (·.source) = some ⟨"x", 1⟩ ∧
      (after.workspace.document? 1).map (·.source) = some ⟨echo, 2⟩ ∧
      (⟨"x", 1⟩ : Source).edit changes 2 = .ok ⟨echo, 2⟩ := by
  intro host changes after
  have hopen : namesake.workspace.get? "/src/Foo.vue" = some 0 := rfl
  have hd : (namesake.notify "/src/Foo.vue" changes 2).overlay.workspace.document? 0 =
      some (Document.update changes 2 ⟨⟨"x", 1⟩, { file := "/src/Foo.vue" }⟩).2 := rfl
  have hfiles : namesake.watchers.files = ["/src/Foo.vue", "/src/Foo.vue.ts"] := by
    have hlive : namesake.watchers.live.map (·.file) = ["/src/Foo.vue", "/src/Foo.vue.ts"] := rfl
    rw [Watchers.files, hlive, sortedSet, sortStrings, List.mergeSort_of_pairwise (by decide)]
    rfl
  have hafter : after = _ := congrArg Notified.overlay (Overlay.hostEdit_eq hopen hd host)
  rw [hfiles] at hafter
  refine ⟨hopen, rfl, ?_, by simp [Source.edit, applyAll, Change.apply, changes]⟩
  rw [hafter]
  decide +kernel

end SubscribedOverlay

end BlockLens
