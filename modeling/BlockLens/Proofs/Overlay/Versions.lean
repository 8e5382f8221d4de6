import BlockLens.Proofs.Overlay.Marker
import BlockLens.Proofs.Overlay.Works
/-!
The version that a generated text carries, and the version that is told with it. The text carries
that of the document it was made from; what is told is the version of the edit. The two agree where
the document took the edit, and differ where it was refused under another version.
-/

set_option autoImplicit false

namespace BlockLens

open Text

theorem Workspace.owner_of_documentById {w : Workspace} {file name : String} {x : Handle}
    (h : (w.documentById file name).1 = .ok (some x)) :
    ∃ n d, w.get? file = some n ∧ w.document? n = some d ∧ x.owner = n := by
  unfold Workspace.documentById at h
  split at h
  · simp at h
  · next n hn =>
    cases hd : w.document? n with
    | none => simp [Workspace.withDocument, hd] at h
    | some d =>
      refine ⟨n, d, hn, hd, ?_⟩
      dsimp only at h
      split at h
      · obtain ⟨b, -, rfl⟩ := Option.map_eq_some_iff.1 (Except.ok.inj h)
        rfl
      · contradiction
      · simp at h

namespace Overlay

variable {ov : Overlay} {file name text : String} {version : Int}

/-- A text that is made from a file carries the version that the document of the file has. -/
theorem version_of_read (host : Host) (hm : MadeFrom file name)
    (ht : (ov.read host name).1 = some text) {w : Int} (hw : Render.Carries text w) :
    ∃ n d, ov.workspace.get? file = some n ∧ ov.workspace.document? n = some d ∧
      w = d.source.version := by
  rcases hm with hk | ⟨i, hk, rfl⟩
  · simp only [read, hk, withWorkspace, Workspace.withOpen] at ht
    split at ht
    · next n hn =>
      simp only [Workspace.withDocument] at ht
      split at ht
      · next d hd =>
        obtain rfl := Option.some.inj ht
        exact ⟨n, d, hn, hd, hw.eq_of_withVersion⟩
      · contradiction
    · contradiction
  · simp only [read, hk, withWorkspace] at ht
    have hworks := Workspace.works_documentById ov.workspace i.file name
    simp only [readBlock] at ht
    split at ht
    · next x v hx =>
      obtain ⟨n, d, hn, hd, hx'⟩ := Workspace.owner_of_documentById (congrArg Prod.fst hx)
      rw [hx] at hworks
      -- the parse may be new, the text is not
      obtain ⟨e, he, hsource⟩ := (hworks.trans (Workspace.works_look _ v x)).document_source
        (Q := (· = d.source)) (fun m a ha _ c hc => (ha.2.source_run _ c).trans hc) hd rfl
      simp only [hx', he, Option.elim_some, hsource] at ht
      exact ⟨n, d, hn, hd, hw.eq_of_generated ht⟩
    · contradiction
    · next e v hx =>
      obtain rfl := Option.some.inj ht
      exact absurd hw (Render.not_carries_errorComment _ w)

variable {evicted : List String} {y : Delivery}

theorem of_mem_tell (host : Host)
    (h : y ∈ (tell host file evicted version name ov).deliveries) :
    MadeFrom file name ∧ ∃ ov' text t, Works (ov.Reads file) ov ov' ∧
      (ov'.read host name).1 = some text ∧ t ∈ ov.watchers.forFile name ∧
      y = ⟨t.id, [⟨none, text⟩], version⟩ := by
  by_cases hm : MadeFrom file name
  case neg =>
    rw [Round.tell_of_not_madeFrom host evicted version hm] at h
    exact absurd h List.not_mem_nil
  have hlookup := works_lookup ov host file evicted hm
  simp only [tell] at h
  split at h
  · next text htext =>
    obtain ⟨t, ht, hy⟩ := of_mem_deliverAll h
    rw [hlookup.watchers] at ht
    refine ⟨hm, (ov.needsNews file evicted name).2, text, t, works_needsNews _ _ _ _, ?_, ht, hy⟩
    split at htext
    · exact htext
    · contradiction
  · exact absurd h List.not_mem_nil

theorem of_mem_announce (host : Host) {names : List String}
    (h : y ∈ (announce host file evicted version names ov).deliveries) :
    ∃ name, MadeFrom file name ∧ ∃ ov' text t,
      Works (fun n a => ∃ name, ov.News file name version n a) ov ov' ∧
      (ov'.read host name).1 = some text ∧ t ∈ ov.watchers.forFile name ∧
      y = ⟨t.id, [⟨none, text⟩], version⟩ := by
  induction names generalizing ov with
  | nil => exact absurd h List.not_mem_nil
  | cons name names ih =>
    rw [announce_cons] at h
    rcases List.mem_append.1 h with h | h
    · obtain ⟨hm, ov', text, t, hw, hread, ht, hy⟩ := of_mem_tell host h
      exact ⟨name, hm, ov', text, t, hw.mono fun n a ha => ⟨name, .inl ha⟩, hread, ht, hy⟩
    · have htell := works_tell ov host file evicted version name
      obtain ⟨other, hm, ov', text, t, hw, hread, ht, hy⟩ := ih h
      simp only [htell.news] at hw
      rw [htell.watchers] at ht
      exact ⟨other, hm, ov', text, t, (htell.mono fun n a ha => ⟨name, ha⟩).trans hw, hread, ht, hy⟩

/-- Whoever hears of an edit hears the edit itself, or what a name that is made from the file was read
as after it. -/
theorem of_mem_hostEdit (host : Host) {changes : List Change}
    (h : y ∈ (ov.hostEdit host file changes version).deliveries) :
    y ∈ (ov.notify file changes version).deliveries ∨
      ∃ name, MadeFrom file name ∧ ∃ ov' text t,
        Works (fun n a => ∃ name, ov.News file name version n a)
          (ov.notify file changes version).overlay ov' ∧
        (ov'.read host name).1 = some text ∧ t ∈ ov.watchers.forFile name ∧
        y = ⟨t.id, [⟨none, text⟩], version⟩ := by
  have hnotify := works_notify ov file changes version
  have hdrain := works_drainEvicted (ov.notify file changes version).overlay file
  rw [hnotify.reads] at hdrain
  simp only [hostEdit] at h
  split at h
  · exact .inl h
  · next evicted ov₁ heq =>
    rw [heq] at hdrain
    rcases List.mem_append.1 h with h | h
    · exact .inl h
    · obtain ⟨name, hm, ov', text, t, hw, hread, ht, hy⟩ := of_mem_announce host h
      simp only [hdrain.news, hnotify.news] at hw
      rw [hdrain.watchers, hnotify.watchers] at ht
      exact .inr ⟨name, hm, ov', text, t, (hdrain.mono fun n a ha => ⟨file, .inl ha⟩).trans hw, hread,
        ht, hy⟩

/-- A composite over the same text watches what is made from the file, so that the file may be sent
what was made from it. -/
def Echoes (ov : Overlay) (file : String) (n : Nat) : Prop :=
  ∃ s ∈ ov.watchers.live, MadeFrom file s.file ∧
    ∃ m, s.listener = .composite m ∧ ov.workspace.textOf? m = ov.workspace.textOf? n

theorem takes_notify {n : Nat} {d : Document} (hd : ov.workspace.document? n = some d)
    (changes : List Change) :
    ∃ e, (ov.notify file changes version).overlay.workspace.document? n = some e ∧
      d.source.Takes changes version e.source := by
  refine (works_notify ov file changes version).workspace.document_source ?_ hd (.inl rfl)
  rintro m a ⟨-, rfl⟩ - c hc
  exact hc.update

/-- In the round that follows, the text stays as it is or takes the version of the edit; it stays as it
is where nothing echoes. -/
theorem source_of_news {ov' : Overlay} {n : Nat} {d : Document}
    (hw : Works (fun n a => ∃ name, ov.News file name version n a) ov ov')
    (hd : ov.workspace.document? n = some d) :
    ∃ e, ov'.workspace.document? n = some e ∧
      (e.source = d.source ∨ e.source.version = version) ∧
      (¬ ov.Echoes file n → e.source = d.source) := by
  obtain ⟨e, he, hversion⟩ := hw.workspace.document_source
    (Q := fun s => s = d.source ∨ s.version = version) (by
      rintro m a ⟨name, ha | ⟨-, text, -, rfl⟩⟩ - c hc
      · rw [ha.2.source_run]
        exact hc
      · simp only [Action.run, Document.source_update]
        cases he : c.source.edit [⟨none, text⟩] version with
        | ok t => exact .inr (Source.version_of_edit he).2
        | error e => exact hc)
    hd (.inl rfl)
  refine ⟨e, he, hversion, fun hno => ?_⟩
  obtain ⟨e', he', hsame⟩ := hw.workspace.document_source (Q := (· = d.source)) (by
      rintro m a ⟨name, ha | ⟨hm, text, ⟨s, hs, hsm⟩, -⟩⟩ htext c hc
      · exact (ha.2.source_run _ c).trans hc
      · obtain ⟨hlive, rfl⟩ := Watchers.mem_forFile.1 hs
        exact absurd ⟨s, hlive, hm, m, hsm, htext⟩ hno)
    hd rfl
  rw [he, Option.some.injEq] at he'
  rw [he', hsame]

end Overlay

namespace HandedOverlay

/-- In every state that commands lead to, and for every edit: whoever watches what is made from the
file is told the version of the edit. The text that is sent with it carries that version if the
document took the edit. If the document did not, the text carries the version that the document has
kept, which is another one unless the edit came under it, or a composite over the same text was sent
a text in the round. -/
theorem version_of_derived_delivery (o : Options) (commands : List Command) (host : Host)
    (file : String) (changes : List Change) (version : Int) :
    let ov := ((start o).run commands).overlay
    ∀ y ∈ (ov.hostEdit host file changes version).deliveries,
      ∀ s ∈ ov.watchers.live, s.id = y.subscription → MadeFrom file s.file →
      y.version = version ∧ ∃ text, y.changes = [⟨none, text⟩] ∧ ∀ N, Render.Carries text N →
        ∃ n before edited, ov.workspace.get? file = some n ∧
          ov.workspace.document? n = some before ∧
          (ov.notify file changes version).overlay.workspace.document? n = some edited ∧
          before.source.Takes changes version edited.source ∧
          (N = version ∨ N = before.source.version) ∧
          (before.source.edit changes version = .ok edited.source → N = version) ∧
          (¬ ov.Echoes file n → edited.source = before.source → N = before.source.version) := by
  intro ov y hy s hs hid hmade
  obtain ⟨L, hsound, -⟩ := (sound_start o).run commands
  have hnumbered : ov.watchers.Numbered := hsound.2
  rcases Overlay.of_mem_hostEdit host hy with hfirst | ⟨name, hm, ov', text, t, hw, hread, -, rfl⟩
  · -- who hears first watches the file itself
    obtain ⟨t, ht, hfile, hyt⟩ := Overlay.of_mem_notify hfirst
    obtain rfl := hnumbered.eq_of_id hs ht (hid.trans hyt)
    rw [List.mem_singleton.1 hfile] at hmade
    exact absurd hmade (not_madeFrom_self file)
  refine ⟨rfl, text, rfl, fun N hN => ?_⟩
  have hnotify := Overlay.works_notify ov file changes version
  obtain ⟨n, d, hn, hd, rfl⟩ := Overlay.version_of_read host hm hread hN
  rw [hw.workspace.get?, hnotify.workspace.get?] at hn
  obtain ⟨before, hbefore, -, -⟩ := hsound.1.file_of_get? hn
  obtain ⟨edited, hedited, htakes⟩ := Overlay.takes_notify hbefore changes
  simp only [← hnotify.news] at hw
  obtain ⟨e, he, hversion, hsame⟩ := Overlay.source_of_news hw hedited
  rw [hd, Option.some.injEq] at he
  subst he
  refine ⟨n, before, edited, hn, hbefore, hedited, htakes, ?_, fun hok => ?_, fun hno hkept => ?_⟩
  · rcases hversion with h | h
    · rw [h]
      exact htakes.symm.imp (fun hok => (Source.version_of_edit hok).2) (congrArg Source.version)
    · exact .inl h
  · rcases hversion with h | h
    · rw [h, (Source.version_of_edit hok).2]
    · exact h
  · have hno : ¬ (ov.notify file changes version).overlay.Echoes file n := by
      simpa only [Overlay.Echoes, hnotify.watchers, hnotify.workspace.textOf?] using hno
    rw [hsame hno, hkept]

def watchedMain : Overlay :=
  ((start ⟨fun _ => {}, .empty, none⟩).run [.openText "/src/Foo.vue" "x" 5,
    .watch "/src/Foo.vue.ts"]).overlay

/-- An edit under an old version is refused. Who watches the main module is told the old version all
the same, with a text that carries the present one. -/
theorem version_of_derived_delivery_refused :
    let host : Host := ⟨fun _ => false, fun _ => .error []⟩
    let r := watchedMain.hostEdit host "/src/Foo.vue" [⟨none, "y"⟩] 3
    (r.overlay.workspace.document? 0).map (·.source) = some ⟨"x", 5⟩ ∧
      ∃ text, r.deliveries = [⟨1, [⟨none, text⟩], 3⟩] ∧ ∀ N, Render.Carries text N ↔ N = 5 := by
  intro host r
  have hopen : watchedMain.workspace.get? "/src/Foo.vue" = some 0 := rfl
  have hlive : watchedMain.watchers.live = [⟨0, "/src/Foo.vue", .composite 0⟩,
      ⟨1, "/src/Foo.vue.ts", .client⟩] := rfl
  have hd : (watchedMain.notify "/src/Foo.vue" [⟨none, "y"⟩] 3).overlay.workspace.document? 0 =
      some ⟨⟨"x", 5⟩, { file := "/src/Foo.vue" }⟩ := rfl
  have hfiles : watchedMain.watchers.files = ["/src/Foo.vue", "/src/Foo.vue.ts"] := by
    rw [Watchers.files, hlive, sortedSet, sortStrings, List.mergeSort_of_pairwise (by decide)]
    rfl
  have hquiet : ¬ watchedMain.Echoes "/src/Foo.vue" 0 := by
    rintro ⟨s, hs, hm, m, hsm, -⟩
    simp only [hlive, List.mem_cons, List.not_mem_nil, or_false] at hs
    rcases hs with rfl | rfl
    · exact not_madeFrom_self _ hm
    · contradiction
  have hr : r = _ := Overlay.hostEdit_eq hopen hd host
  rw [hfiles] at hr
  let text := Render.withVersion ("const _Self = \x7b\x7d as any\nexport type __Props = \x7b\x7d\n" ++
    "const Foo = _Self\nexport default Foo") 5
  have hsent : r.deliveries = [⟨1, [⟨none, text⟩], 3⟩] := by
    rw [hr]
    decide +kernel
  refine ⟨?_, text, hsent, fun N => ⟨fun hN => ?_, ?_⟩⟩
  · rw [hr]
    decide +kernel
  · obtain ⟨-, text', htext, hall⟩ := version_of_derived_delivery ⟨fun _ => {}, .empty, none⟩
      [.openText "/src/Foo.vue" "x" 5, .watch "/src/Foo.vue.ts"] host "/src/Foo.vue" [⟨none, "y"⟩] 3
      ⟨1, [⟨none, text⟩], 3⟩ (hsent ▸ List.mem_singleton_self _) ⟨1, "/src/Foo.vue.ts", .client⟩
      (hlive ▸ by simp) rfl (.inl rfl)
    obtain rfl : text = text' := by simpa using htext
    obtain ⟨n, before, edited, hn, hb, he, -, -, -, hkept⟩ := hall N hN
    obtain rfl : 0 = n := Option.some.inj hn
    obtain rfl : _ = before := Option.some.inj hb
    obtain rfl : _ = edited := Option.some.inj (hd.symm.trans he)
    exact hkept hquiet rfl
  · exact Render.carries_withVersion.2

end HandedOverlay

end BlockLens
