import BlockLens.Proofs.Overlay.Works
/-!
Three tables in step: the open files, the subscriptions that forward edits to their composites, and
the record of these. Every command to an overlay keeps them so, as long as clients give up no
subscriptions but their own.
-/

set_option autoImplicit false

namespace BlockLens

theorem filter_eq_toList_lookup {β : Type} {l : List (String × β)} (h : (l.map (·.1)).Nodup)
    (file : String) : l.filter (·.1 = file) = (l.lookup file).toList.map (file, ·) := by
  induction l with
  | nil => rfl
  | cons p l ih =>
    obtain ⟨k, v⟩ := p
    simp only [List.map_cons, List.nodup_cons] at h
    rw [List.lookup_cons]
    by_cases hk : k = file
    · subst hk
      have hno : l.filter (·.1 = k) = [] :=
        List.filter_eq_nil_iff.2 fun q hq => by
          simpa using fun he : q.1 = k => h.1 (he ▸ List.mem_map_of_mem hq)
      rw [List.filter_cons_of_pos (by simp), hno]
      simp
    · have hb : (file == k) = false := by simpa using fun he => hk he.symm
      rw [List.filter_cons_of_neg (by simpa using hk), ih h.2, hb]

theorem lookup_eq_some_iff_mem {β : Type} {l : List (String × β)} (h : (l.map (·.1)).Nodup)
    {file : String} {b : β} : l.lookup file = some b ↔ (file, b) ∈ l := by
  have hmem : (file, b) ∈ l ↔ (file, b) ∈ l.filter (·.1 = file) := by simp
  rw [hmem, filter_eq_toList_lookup h]
  simp

namespace Overlay

def relays (ov : Overlay) : List (Subscription Listener) :=
  ov.watchers.live.filter (·.listener ≠ .client)

/-- The subscriptions of composites are those on record, no file has two of them, and no two share a
number. -/
structure Recorded (ov : Overlay) : Prop where
  forwarding : ov.forwarding = ov.relays.map fun s => (s.file, s.id)
  files : (ov.relays.map (·.file)).Nodup
  numbered : ov.watchers.Numbered

/-- Each open file has one subscription, which leads to its composite and is on record. Every
composite has a text of its own. -/
structure InStep (ov : Overlay) : Prop where
  forwarding : ov.forwarding = ov.relays.map fun s => (s.file, s.id)
  opened : ov.workspace.opened.map (fun p => (p.1, Listener.composite p.2)) =
    ov.relays.map fun s => (s.file, s.listener)
  files : (ov.relays.map (·.file)).Nodup
  numbered : ov.watchers.Numbered
  sources : ov.workspace.composites.map (·.source) = List.range ov.workspace.sources.length

variable {ov ov' : Overlay}

theorem mem_relays {s : Subscription Listener} :
    s ∈ ov.relays ↔ s ∈ ov.watchers.live ∧ ∃ n, s.listener = .composite n := by
  simp only [relays, List.mem_filter, decide_eq_true_eq]
  refine and_congr_right fun _ => ?_
  cases s.listener <;> simp

theorem relays_unsubscribe (ov : Overlay) (id : Nat) :
    (ov.unwatch id).relays = ov.relays.filter (·.id != id) := by
  simp only [relays, unwatch, Watchers.unsubscribe, List.filter_filter, Bool.and_comm]

theorem relays_unwatch {id : Nat} (hid : ∀ s ∈ ov.relays, s.id ≠ id) :
    (ov.unwatch id).relays = ov.relays := by
  rw [relays_unsubscribe]
  exact List.filter_eq_self.2 fun s hs => by simpa using hid s hs

theorem relays_watch (ov : Overlay) (file : String) : (ov.watch file).2.relays = ov.relays := by
  simp [relays, watch, Watchers.subscribe]

@[simp] theorem relays_shutdown (ov : Overlay) : ov.shutdown.relays = [] := rfl

theorem relays_of_subscribe {file : String} {n : Nat}
    (h : ov'.watchers = (ov.watchers.subscribe file (.composite n)).2) :
    ov'.relays = ov.relays ++ [⟨ov.watchers.next, file, .composite n⟩] := by
  simp [relays, h, Watchers.subscribe]

theorem next_stopForwarding (ov : Overlay) (file : String) :
    (ov.stopForwarding file).watchers.next = ov.watchers.next := by
  unfold stopForwarding
  split <;> rfl

namespace Recorded

theorem lookup_eq_some (h : ov.Recorded) {file : String} {id : Nat} :
    ov.forwarding.lookup file = some id ↔ ∃ s ∈ ov.relays, s.file = file ∧ s.id = id := by
  have hfst : (ov.forwarding.map (·.1)).Nodup := by
    rw [h.forwarding, List.map_map]
    exact h.files
  rw [lookup_eq_some_iff_mem hfst, h.forwarding]
  simp

/-- The one subscription of a file is ended with the forwarding to it. -/
theorem relays_stopForwarding (h : ov.Recorded) (file : String) :
    (ov.stopForwarding file).relays = ov.relays.filter (·.file ≠ file) ∧
      (ov.stopForwarding file).forwarding = ov.forwarding.filter (·.1 ≠ file) := by
  cases hn : ov.forwarding.lookup file with
  | none =>
    have hno : ∀ s ∈ ov.relays, s.file ≠ file := by
      intro s hs hfile
      rw [h.lookup_eq_some.2 ⟨s, hs, hfile, rfl⟩] at hn
      contradiction
    simp only [Overlay.stopForwarding, hn]
    refine ⟨(List.filter_eq_self.2 fun s hs => by simpa using hno s hs).symm, ?_⟩
    refine (List.filter_eq_self.2 fun p hp => ?_).symm
    rw [h.forwarding] at hp
    obtain ⟨s, hs, rfl⟩ := List.mem_map.1 hp
    simpa using hno s hs
  | some id =>
    obtain ⟨s, hs, rfl, rfl⟩ := h.lookup_eq_some.1 hn
    have hrelays : (ov.unwatch s.id).relays = ov.relays.filter (·.file ≠ s.file) := by
      rw [relays_unsubscribe]
      refine List.filter_congr fun t ht => ?_
      -- a subscription is told as well by its number as by its file
      have hsame : t.id = s.id ↔ t.file = s.file := by
        constructor
        · intro hid
          rw [h.numbered.eq_of_id (mem_relays.1 ht).1 (mem_relays.1 hs).1 hid]
        · intro hfile
          rw [List.inj_on_of_nodup_map h.files ht hs hfile]
      rw [Bool.eq_iff_iff]
      simp [hsame]
    simp only [Overlay.stopForwarding, hn]
    exact ⟨hrelays, trivial⟩

theorem stopForwarding (h : ov.Recorded) (file : String) : (ov.stopForwarding file).Recorded := by
  obtain ⟨hrelays, hforwarding⟩ := h.relays_stopForwarding file
  constructor
  · rw [hforwarding, hrelays, h.forwarding, List.filter_map]
    rfl
  · rw [hrelays]
    exact h.files.sublist (List.filter_sublist.map _)
  · unfold Overlay.stopForwarding
    split
    · exact h.numbered.unsubscribe _
    · exact h.numbered

theorem watch (h : ov.Recorded) (file : String) : (ov.watch file).2.Recorded where
  forwarding := by
    rw [relays_watch]
    exact h.forwarding
  files := by
    rw [relays_watch]
    exact h.files
  numbered := h.numbered.subscribe file _

theorem given_watch (h : ov.Recorded) {given : List Nat} (hbelow : ∀ id ∈ given, id < ov.watchers.next)
    (hgiven : ∀ id ∈ given, ∀ s ∈ ov.relays, s.id ≠ id) (file : String) :
    let p := ov.watch file
    (∀ id ∈ given ++ [p.1.id], id < p.2.watchers.next) ∧
      ∀ id ∈ given ++ [p.1.id], ∀ s ∈ p.2.relays, s.id ≠ id := by
  intro p
  refine ⟨fun id hid => ?_, fun id hid s hs => ?_⟩
  · rcases List.mem_append.1 hid with hid | hid
    · exact Nat.lt_succ_of_lt (hbelow id hid)
    · rw [List.mem_singleton.1 hid]
      exact Nat.lt_succ_self _
  · rw [relays_watch] at hs
    rcases List.mem_append.1 hid with hid | hid
    · exact hgiven id hid s hs
    · rw [List.mem_singleton.1 hid]
      exact Nat.ne_of_lt (h.numbered.below s (mem_relays.1 hs).1)

theorem unwatch (h : ov.Recorded) {id : Nat} (hid : ∀ s ∈ ov.relays, s.id ≠ id) :
    (ov.unwatch id).Recorded where
  forwarding := by
    rw [relays_unwatch hid]
    exact h.forwarding
  files := by
    rw [relays_unwatch hid]
    exact h.files
  numbered := h.numbered.unsubscribe id

theorem subscribe (h : ov.Recorded) {file : String} (hno : ∀ s ∈ ov.relays, s.file ≠ file) (n : Nat) :
    Recorded { ov with
      watchers := (ov.watchers.subscribe file (.composite n)).2
      forwarding := ov.forwarding ++ [(file, ov.watchers.next)] } := by
  constructor
  · rw [relays_of_subscribe rfl, List.map_append, ← h.forwarding]
    rfl
  · rw [relays_of_subscribe rfl, List.map_append]
    refine List.nodup_append.2 ⟨h.files, by simp, fun a ha b hb => ?_⟩
    obtain ⟨s, hs, rfl⟩ := List.mem_map.1 ha
    have hb : b = file := by simpa using hb
    rw [hb]
    exact hno s hs
  · exact h.numbered.subscribe file _

end Recorded

theorem inStep_empty (w : Workspace) (hw : w.opened = []) (hc : w.composites = [])
    (hs : w.sources = []) : (ofWorkspace w).InStep := by
  constructor
  · rfl
  · simp [ofWorkspace, relays, hw]
  · simp [ofWorkspace, relays]
  · exact Watchers.numbered_empty
  · simp [ofWorkspace, hc, hs]

namespace InStep

theorem recorded (h : ov.InStep) : ov.Recorded := ⟨h.forwarding, h.files, h.numbered⟩

theorem map_fst_opened (h : ov.InStep) :
    ov.workspace.opened.map (·.1) = ov.relays.map (·.file) := by
  have hfst := congrArg (List.map Prod.fst) h.opened
  simpa [Function.comp_def] using hfst

theorem get?_eq_some (h : ov.InStep) {file : String} {n : Nat} :
    ov.workspace.get? file = some n ↔ ∃ s ∈ ov.relays, s.file = file ∧ s.listener = .composite n := by
  rw [Workspace.get?, lookup_eq_some_iff_mem (h.map_fst_opened ▸ h.files)]
  have hmem : (file, n) ∈ ov.workspace.opened ↔ (file, Listener.composite n) ∈
      ov.workspace.opened.map fun p => (p.1, Listener.composite p.2) := by simp
  rw [hmem, h.opened]
  simp

theorem isSome_lookup (h : ov.InStep) (file : String) :
    (ov.forwarding.lookup file).isSome = ov.workspace.isOpen file := by
  rw [Workspace.isOpen, Bool.eq_iff_iff, Option.isSome_iff_exists, Option.isSome_iff_exists]
  constructor
  · rintro ⟨id, hid⟩
    obtain ⟨s, hs, hfile, -⟩ := h.recorded.lookup_eq_some.1 hid
    obtain ⟨-, n, hn⟩ := mem_relays.1 hs
    exact ⟨n, h.get?_eq_some.2 ⟨s, hs, hfile, hn⟩⟩
  · rintro ⟨n, hn⟩
    obtain ⟨s, hs, hfile, -⟩ := h.get?_eq_some.1 hn
    exact ⟨s.id, h.recorded.lookup_eq_some.2 ⟨s, hs, hfile, rfl⟩⟩

theorem apart (h : ov.InStep) : ov.workspace.Apart := by
  rw [Workspace.Apart, h.sources]
  exact List.nodup_range

theorem get?_of_edits (h : ov.InStep) {name : String} {changes : List Change} {version : Int} {n : Nat}
    {a : Action} (he : Edits (ov.watchers.forFile name) changes version n a) :
    ov.workspace.get? name = some n := by
  obtain ⟨⟨s, hs, hn⟩, -⟩ := he
  obtain ⟨hlive, hfile⟩ := Watchers.mem_forFile.1 hs
  exact h.get?_eq_some.2 ⟨s, mem_relays.2 ⟨hlive, n, hn⟩, hfile, hn⟩

/-- An edit concerns open documents only. -/
theorem works_hostEdit (h : ov.InStep) (host : Host) (file : String) (changes : List Change)
    (version : Int) :
    Works (fun n _ => ∃ name, ov.workspace.get? name = some n) ov
      (ov.hostEdit host file changes version).overlay := by
  have hnotify := works_notify ov file changes version
  have hrest := Overlay.works_hostEdit ov host file changes version
  refine (hnotify.mono fun n a he => ⟨file, h.get?_of_edits he⟩).trans (hrest.mono ?_)
  rintro n a (hr | ⟨name, hr | ⟨-, text, he⟩⟩)
  · exact ⟨file, hr.1⟩
  · exact ⟨file, hr.1⟩
  · exact ⟨name, h.get?_of_edits he⟩

theorem works {T : Nat → Action → Prop} (h : ov.InStep) (hw : Works T ov ov') : ov'.InStep := by
  obtain ⟨-, hopened, -, hlength, hsources⟩ := hw.workspace.frame
  have hrelays : ov'.relays = ov.relays := by simp only [relays, hw.watchers]
  constructor
  · rw [hw.forwarding, hrelays, h.forwarding]
  · rw [hopened, hrelays, h.opened]
  · rw [hrelays]
    exact h.files
  · rw [hw.watchers]
    exact h.numbered
  · rw [hsources, hlength, h.sources]

theorem watch (h : ov.InStep) (file : String) : (ov.watch file).2.InStep where
  forwarding := (h.recorded.watch file).forwarding
  opened := by
    rw [relays_watch]
    exact h.opened
  files := (h.recorded.watch file).files
  numbered := (h.recorded.watch file).numbered
  sources := h.sources

theorem unwatch (h : ov.InStep) {id : Nat} (hid : ∀ s ∈ ov.relays, s.id ≠ id) :
    (ov.unwatch id).InStep where
  forwarding := (h.recorded.unwatch hid).forwarding
  opened := by
    rw [relays_unwatch hid]
    exact h.opened
  files := (h.recorded.unwatch hid).files
  numbered := (h.recorded.unwatch hid).numbered
  sources := h.sources

theorem relays_close (h : ov.InStep) (file : String) :
    (ov.close file).2.relays = ov.relays.filter (·.file ≠ file) :=
  (h.recorded.relays_stopForwarding file).1

theorem close (h : ov.InStep) (file : String) : (ov.close file).2.InStep := by
  have hrecorded := h.recorded.stopForwarding file
  constructor
  · exact hrecorded.forwarding
  · rw [h.relays_close]
    simp only [Overlay.close, Workspace.close, workspace_stopForwarding]
    have hfilter := congrArg (List.filter fun p : String × Listener => p.1 ≠ file) h.opened
    rw [List.filter_map, List.filter_map] at hfilter
    exact hfilter
  · exact hrecorded.files
  · exact hrecorded.numbered
  · simp only [Overlay.close, Workspace.close, workspace_stopForwarding]
    exact h.sources

theorem shutdown (h : ov.InStep) : ov.shutdown.InStep := by
  constructor
  · rfl
  · rfl
  · exact List.nodup_nil
  · exact Watchers.numbered_clear _
  · exact h.sources

end InStep

def opening (file text : String) (version : Int) (ov : Overlay) : Overlay where
  workspace := { ov.workspace with
    sources := ov.workspace.sources ++ [⟨text, version⟩]
    composites := ov.workspace.composites ++ [⟨ov.workspace.sources.length, { file }⟩]
    opened := ov.workspace.opened ++ [(file, ov.workspace.composites.length)] }
  watchers := (ov.watchers.subscribe file (.composite ov.workspace.composites.length)).2
  forwarding := ov.forwarding ++ [(file, ov.watchers.next)]

theorem forward_openText {file : String} (hclosed : ov.workspace.get? file = none)
    (hnone : ov.forwarding.lookup file = none) (text : String) (version : Int) :
    let p := ov.workspace.openText file text version
    forward file p.1 { ov with workspace := p.2 } = ov.opening file text version := by
  have hclosed' : ov.workspace.opened.lookup file = none := hclosed
  simp only [Workspace.openText, Workspace.addSource, Workspace.openSource, Workspace.get?, hclosed',
    forward, stopForwarding, hnone]
  rfl

namespace InStep

theorem lookup_eq_none (h : ov.InStep) {file : String} (hclosed : ov.workspace.get? file = none) :
    ov.forwarding.lookup file = none := by
  have hsome := h.isSome_lookup file
  rw [Workspace.isOpen, hclosed] at hsome
  simpa using hsome

theorem openFile_cases (h : ov.InStep) (host : Host) (file : String) :
    (ov.openFile host file).2 = ov ∨ ov.workspace.get? file = none ∧
      ∃ text, (ov.openFile host file).2 = ov.opening file text 0 := by
  cases hn : ov.workspace.get? file with
  | some n =>
    refine .inl ?_
    simp only [Overlay.openFile, hn]
  | none =>
    simp only [Overlay.openFile, hn]
    split
    · next text _ =>
      exact .inr ⟨trivial, text, forward_openText hn (h.lookup_eq_none hn) text 0⟩
    · exact .inl rfl

theorem openText_cases (h : ov.InStep) (file text : String) (version : Int) :
    (ov.openText file text version).2 = ov ∨ ov.workspace.get? file = none ∧
      (ov.openText file text version).2 = ov.opening file text version := by
  have hsome := h.isSome_lookup file
  rw [Workspace.isOpen] at hsome
  cases hn : ov.workspace.get? file with
  | some n =>
    refine .inl ?_
    rw [hn] at hsome
    simp only [Overlay.openText, Workspace.openText, hn, hsome, Option.isSome_some, if_true]
  | none =>
    refine .inr ⟨rfl, ?_⟩
    rw [hn] at hsome
    simp only [Overlay.openText, hsome, Option.isSome_none, Bool.false_eq_true, if_false]
    exact forward_openText hn (h.lookup_eq_none hn) text version

theorem relays_opening (ov : Overlay) (file text : String) (version : Int) :
    (ov.opening file text version).relays =
      ov.relays ++ [⟨ov.watchers.next, file, .composite ov.workspace.composites.length⟩] :=
  relays_of_subscribe rfl

theorem opening (h : ov.InStep) {file : String} (hclosed : ov.workspace.get? file = none)
    (text : String) (version : Int) : (ov.opening file text version).InStep := by
  have hno : ∀ s ∈ ov.relays, s.file ≠ file := by
    intro s hs hfile
    obtain ⟨-, n, hn⟩ := mem_relays.1 hs
    rw [h.get?_eq_some.2 ⟨s, hs, hfile, hn⟩] at hclosed
    contradiction
  have hrecorded := h.recorded.subscribe hno ov.workspace.composites.length
  constructor
  · exact hrecorded.forwarding
  · rw [relays_opening, List.map_append, ← h.opened]
    simp [Overlay.opening]
  · exact hrecorded.files
  · exact hrecorded.numbered
  · simp only [Overlay.opening, List.map_append, h.sources, List.length_append]
    exact List.range_succ.symm

end InStep

end Overlay

/-- Goes past the overlay, to the texts, to the store or to a document. -/
def Command.Bypasses : Command → Prop
  | .addSource _ | .editSource _ _ _ | .storeOpen _ _ _ | .storeOpenSource _ _ | .storeClose _
  | .act _ _ => True
  | _ => False

inductive Overlay.Turns (ov : Overlay) : Command → Overlay → Prop where
  | works {c : Command} {ov' : Overlay}
      (h : Works (fun n _ => ∃ name, ov.workspace.get? name = some n) ov ov') : Turns ov c ov'
  | opens {c : Command} (file text : String) (version : Int)
      (hclosed : ov.workspace.get? file = none) : Turns ov c (ov.opening file text version)
  | close (file : String) : Turns ov (.close file) (ov.close file).2
  | shutdown : Turns ov .shutdown ov.shutdown
  | watch (file : String) : Turns ov (.watch file) (ov.watch file).2
  | unwatch (id : Nat) : Turns ov (.unwatch id) (ov.unwatch id)
  | hold (n : Nat) : Turns ov (.hold n) { ov with workspace := ov.workspace.hold n }
  | releaseAll : Turns ov .releaseAll { ov with workspace := ov.workspace.releaseAll }

theorem HandedOverlay.turns_exec {σ : HandedOverlay} (h : σ.overlay.InStep) {c : Command}
    (hc : ¬ c.Bypasses) : σ.overlay.Turns c (σ.exec c).overlay := by
  cases c with
  | addSource | editSource | storeOpen | storeOpenSource | storeClose | act =>
    exact absurd trivial hc
  | openFile host file =>
    rcases h.openFile_cases host file with hsame | ⟨hclosed, text, hopen⟩
    · simp only [exec, withOverlay, hsame]
      exact .works (.refl _ _)
    · simp only [exec, withOverlay, hopen]
      exact .opens file text 0 hclosed
  | openText file text version =>
    rcases h.openText_cases file text version with hsame | ⟨hclosed, hopen⟩
    · simp only [exec, withOverlay, hsame]
      exact .works (.refl _ _)
    · simp only [exec, withOverlay, hopen]
      exact .opens file text version hclosed
  | close file => exact .close file
  | shutdown => exact .shutdown
  | watch file => exact .watch file
  | unwatch id => exact .unwatch id
  | hold n => exact .hold n
  | releaseAll => exact .releaseAll
  | look i =>
    simp only [exec, Session.look]
    split
    · next x _ => exact .works ⟨Workspace.works_look _ σ.overlay.workspace x, rfl, rfl⟩
    · exact .works (.refl _ _)
  | fileExists host name =>
    exact .works ((Overlay.works_fileExists σ.overlay host name).mono fun _ _ ha => ⟨_, ha.1⟩)
  | read host name =>
    exact .works ((Overlay.works_read σ.overlay host name).mono fun _ _ ha => ⟨_, ha.1⟩)
  | notify file changes version =>
    exact .works ((Overlay.works_notify σ.overlay file changes version).mono fun _ _ ha =>
      ⟨_, h.get?_of_edits ha⟩)
  | hostEdit host file changes version => exact .works (h.works_hostEdit host file changes version)

/-- The tables stay in step, unless the subscription of a composite is given up for it. -/
theorem Overlay.InStep.turn {ov ov' : Overlay} (h : ov.InStep) {c : Command} (ht : ov.Turns c ov')
    (hid : ∀ id, c = .unwatch id → ∀ s ∈ ov.relays, s.id ≠ id) : ov'.InStep := by
  cases ht with
  | works hw => exact h.works hw
  | opens file text version hclosed => exact h.opening hclosed text version
  | close file => exact h.close file
  | shutdown => exact h.shutdown
  | watch file => exact h.watch file
  | unwatch id => exact h.unwatch (hid id rfl)
  | hold n => exact { h with }
  | releaseAll => exact { h with }

end BlockLens
