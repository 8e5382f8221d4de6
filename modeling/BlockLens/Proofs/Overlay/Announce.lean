import BlockLens.Proofs.FileKind
import BlockLens.Proofs.Overlay.Sound
/-!
The round of announcements after an edit. The names are taken in order, and reading one of them may
make the block document that the next is asked for; a round makes no other change.
-/

set_option autoImplicit false

namespace BlockLens

namespace Composite

variable {o : Options} {c : Composite}

theorem hasDocument_iff {name : String} : c.hasDocument name = true ↔ ∃ b ∈ c.live, b.key = name := by
  simp [hasDocument]

theorem document_spec (o : Options) (c : Composite) (s : Slot) :
    ∃ extra created, (c.document o s).2 = { c with live := c.live ++ extra, created } ∧
      ∀ name, (∃ b ∈ c.live ++ extra, b.key = name) ↔
        (∃ b ∈ c.live, b.key = name) ∨ c.blockId? o s = some name := by
  cases hi : idIn o c.file c.outline s with
  | none =>
    rw [document_of_no_id hi]
    exact ⟨[], c.created, by simp, by simp [blockId?, hi]⟩
  | some i =>
    have hid : c.blockId? o s = some i.text := by simp [blockId?, hi]
    cases hf : c.live.find? (·.key = i.text) with
    | some d =>
      have hkey : d.key = i.text := by simpa using List.find?_some hf
      rw [document_of_find hi hf]
      refine ⟨[], c.created, by simp, fun name => ?_⟩
      rw [List.append_nil, hid, Option.some.injEq]
      refine ⟨.inl, fun h => h.elim id fun hn => ⟨d, List.mem_of_find?_eq_some hf, hkey.trans hn⟩⟩
    | none =>
      obtain ⟨b, hb, hd⟩ := document_of_not_find hi hf
      have hb' := key_of_anew o hb hi
      have hkey : ({ b with serial := c.created } : BlockDocument).key = i.text := hb'
      rw [hd]
      refine ⟨[{ b with serial := c.created }], c.created + 1, rfl, fun name => ?_⟩
      simp [hid, hkey, or_and_right, exists_or]

/-- A document that was handed out is handed out again, whatever was made since. -/
theorem document_again (o : Options) (c : Composite) (s : Slot) (extra : List BlockDocument)
    (created : Nat) :
    (document o s { (c.document o s).2 with live := (c.document o s).2.live ++ extra, created }).1 =
      (c.document o s).1 := by
  cases hi : idIn o c.file c.outline s with
  | none =>
    rw [document_of_no_id hi, document_of_no_id (by exact hi)]
  | some i =>
    cases hf : c.live.find? (·.key = i.text) with
    | some d =>
      rw [document_of_find hi hf]
      have hf' : (c.live ++ extra).find? (·.key = i.text) = some d := by
        rw [List.find?_append, hf]
        rfl
      rw [document_of_find (by exact hi) hf']
    | none =>
      obtain ⟨b, hb, hd⟩ := document_of_not_find hi hf
      have hb' := key_of_anew o hb hi
      have hkey : ({ b with serial := c.created } : BlockDocument).key = i.text := hb'
      rw [hd]
      have hf' : (c.live ++ [{ b with serial := c.created }] ++ extra).find? (·.key = i.text) =
          some { b with serial := c.created } := by
        rw [List.append_assoc, List.find?_append, hf, List.cons_append, List.find?_cons_of_pos]
        · rfl
        · simpa using hkey
      rw [document_of_find (by exact hi) hf']

end Composite

theorem Workspace.documentById_eq {w : Workspace} {file name : String} {n : Nat} {d d' : Document}
    {doc : Option BlockDocument} (hn : w.get? file = some n) (hd : w.document? n = some d)
    (h : d.documentById w.options name = (.ok doc, d')) :
    w.documentById file name = (.ok (doc.map (⟨n, ·⟩)), w.put n d') := by
  simp only [Workspace.documentById, hn, Workspace.withDocument, hd, h]

theorem Workspace.get?_put (w : Workspace) (n : Nat) (d : Document) (file : String) :
    (w.put n d).get? file = w.get? file := by
  unfold Workspace.put
  split <;> rfl

/-- `name` is a name of a block of the file, if not its present one, and `x` is its present one. -/
def Composite.Leads (o : Options) (c : Composite) (name x : String) : Prop :=
  ∃ i s, FileKind.classify name = .block i ∧ i.file = c.file ∧ i.slot? = some s ∧
    c.blockId? o s = some x

theorem Composite.Leads.eq {o : Options} {c : Composite} {a b x : String} (h : c.Leads o a b)
    (h' : c.Leads o b x) : x = b := by
  obtain ⟨i, s, hi, -, hs, hb⟩ := h
  obtain ⟨j, t, hj, -, ht, hx⟩ := h'
  obtain ⟨-, hik, -⟩ := Identifier.parse_eq_ok (FileKind.parse_of_classify hi)
  obtain ⟨hjv, hjk, hjb⟩ := Identifier.parse_eq_ok (FileKind.parse_of_classify hj)
  obtain ⟨k, hk, hkb⟩ := Option.map_eq_some_iff.1 hb
  obtain ⟨hks, -, hkk, hkv⟩ := slot?_of_idIn o hk
  have hkt : k.kind.IsTag := by
    rw [hkk, (Slot.ofParts?_eq_some.1 hs).1]
    exact hik
  have hkj := Identifier.text_injective hkv hjv hkt hjk (hkb.trans hjb.symm)
  subst hkj
  rw [hks, Option.some.injEq] at ht
  subst ht
  rw [hb, Option.some.injEq] at hx
  exact hx.symm

namespace Document

variable {o : Options} {d : Document}

theorem documentById_eq (hc : d.composite.dirty = false) {name : String} {i : Identifier} {s : Slot}
    (hp : Identifier.parse name = .ok i) (hf : i.file = d.composite.file) (hs : i.slot? = some s) :
    d.documentById o name =
      (.ok (d.composite.document o s).1, { d with composite := (d.composite.document o s).2 }) := by
  simp only [documentById, Identifier.compositeOf?_of_parse hp, hf, Option.any_some, bne_self_eq_false,
    Bool.false_eq_true, if_false, hp, hs, blockDocument, refresh_of_clean hc]

def shown? (o : Options) (d : Document) (s : Slot) : Option String :=
  (d.composite.document o s).1.bind fun b =>
    Render.generated (b.generate (b.current (some d.composite.outline)).block) d.source.version

end Document

/-- The names of the files that are made from `file`. -/
def MadeFrom (file name : String) : Prop :=
  FileKind.classify name = .main file ∨ ∃ i, FileKind.classify name = .block i ∧ i.file = file

namespace Overlay

/-- What does not change during a round of announcements. Nobody is told but those outside. -/
structure Round where
  options : Options
  watchers : Watchers Listener
  file : String
  number : Nat
  document : Document
  clean : document.composite.dirty = false
  named : document.composite.file = file
  clients : ∀ s ∈ watchers.live, MadeFrom file s.file → s.listener = .client

namespace Round

variable (R : Round)

def holding (live : List BlockDocument) (created : Nat) : Document :=
  { R.document with composite := { R.document.composite with live, created } }

/-- The state of a round: all is as it was but for the block documents, which are `live`. -/
structure Settled (live : List BlockDocument) (ov : Overlay) : Prop where
  options : ov.workspace.options = R.options
  watchers : ov.watchers = R.watchers
  sound : ∃ L, ov.Sound L
  isOpen : ov.workspace.get? R.file = some R.number
  document : ∃ created, ov.workspace.document? R.number = some (R.holding live created)

variable {R} {live : List BlockDocument} {ov : Overlay}

theorem Settled.withDocument (h : R.Settled live ov) {α : Type} {f : Options → Document → α × Document}
    {a : α} (hf : ∀ created, f R.options (R.holding live created) = (a, R.holding live created)) :
    ov.withWorkspace (·.withOpen R.file f) = (some a, ov) := by
  obtain ⟨created, hd⟩ := h.document
  simp only [withWorkspace, Workspace.withOpen, h.isOpen, Workspace.withDocument, hd, h.options,
    hf created, Workspace.put_self hd]

theorem Settled.needsNews (h : R.Settled live ov) (evicted : List String) {name : String}
    {i : Identifier} (hk : FileKind.classify name = .block i) (hi : i.file = R.file) :
    ov.needsNews R.file evicted name =
      (evicted.contains name || !live.any (·.key = name), ov) := by
  have hno := h.withDocument (f := fun o d => d.hasDocument o name) (a := live.any (·.key = name))
    fun created => by
      have hc : (R.holding live created).composite.dirty = false := R.clean
      simp only [Document.hasDocument, Document.refresh_of_clean hc]
      rfl
  simp only [Overlay.needsNews, hk, hi, if_true]
  cases evicted.contains name with
  | true => simp
  | false =>
    simp only [Bool.false_eq_true, if_false, hno, Bool.false_or, Prod.mk.injEq, and_true]
    cases live.any (·.key = name) <;> rfl

theorem documentById_holding (live : List BlockDocument) (created : Nat) {name : String}
    {i : Identifier} {s : Slot} (hp : Identifier.parse name = .ok i) (hi : i.file = R.file)
    (hs : i.slot? = some s) :
    ∃ extra created', (R.holding live created).documentById R.options name =
      (.ok ((R.holding live created).composite.document R.options s).1,
        R.holding (live ++ extra) created') ∧
      ((R.holding live created).composite.document R.options s).2 =
        (R.holding (live ++ extra) created').composite := by
  have hc : (R.holding live created).composite.dirty = false := R.clean
  have hf : i.file = (R.holding live created).composite.file := hi.trans R.named.symm
  obtain ⟨extra, created', hd, -⟩ :=
    Composite.document_spec R.options (R.holding live created).composite s
  refine ⟨extra, created', ?_, hd⟩
  rw [Document.documentById_eq hc hp hf hs, hd]
  rfl

/-- Reading a block shows its slot, and makes its document if need be. -/
theorem Settled.readBlock (h : R.Settled live ov) {name : String} {i : Identifier} {s : Slot}
    (hp : Identifier.parse name = .ok i) (hi : i.file = R.file) (hs : i.slot? = some s) :
    ∃ created, (readBlock R.file name ov.workspace).1 = (R.holding live created).shown? R.options s ∧
      R.Settled ((R.holding live created).composite.document R.options s).2.live
        { ov with workspace := (readBlock R.file name ov.workspace).2 } := by
  obtain ⟨created, hd⟩ := h.document
  obtain ⟨L, hsound⟩ := h.sound
  obtain ⟨extra, created', hid, hlive⟩ := documentById_holding live created hp hi hs
  have hby := Workspace.documentById_eq h.isOpen hd (by rw [h.options]; exact hid)
  obtain ⟨L₁, -, hs₁, hdocs⟩ := hsound.1.documentById R.file name
  obtain ⟨L₂, -, hs₂⟩ := Overlay.Sound.readBlock hsound.1 R.file name
  have hdoc := Workspace.document?_put_self hd (R.holding (live ++ extra) created')
  -- all that the read leaves changed are the document and the store of generated texts
  have frame : ∀ w kept, w = { ov.workspace.put R.number (R.holding (live ++ extra) created') with kept } →
      w.Sound L₂ → R.Settled (live ++ extra) { ov with workspace := w } := by
    rintro w kept rfl hw
    refine ⟨?_, h.watchers, ⟨L₂, hw, hsound.2⟩, ?_, created', hdoc⟩
    · simp only [Workspace.options_put, h.options]
    · exact (Workspace.get?_put _ _ _ _).trans h.isOpen
  refine ⟨created, ?_⟩
  rw [hlive]
  simp only [Overlay.readBlock, hby] at hs₂ ⊢
  rw [hby] at hs₁ hdocs
  simp only [Document.shown?]
  cases hb : ((R.holding live created).composite.document R.options s).1 with
  | none =>
    rw [hb] at hs₂
    exact ⟨rfl, frame _ _ rfl hs₂⟩
  | some b =>
    rw [hb] at hs₂ hdocs
    obtain ⟨kept, hk⟩ := Workspace.look_frame
      (ov.workspace.put R.number (R.holding (live ++ extra) created')) ⟨R.number, b⟩
    have hlook := hs₁.look_eq (x := ⟨R.number, b⟩) (hdocs _ rfl)
    have halive : (ov.workspace.put R.number (R.holding (live ++ extra) created')).isAlive R.number =
        true := by
      obtain ⟨d, -, -, ha⟩ := hsound.1.file_of_get? h.isOpen
      rwa [Workspace.isAlive_put]
    rw [Workspace.entryOf_eq halive hdoc] at hlook
    have hversion : ({ ov.workspace.put R.number (R.holding (live ++ extra) created') with kept } :
        Workspace).document? R.number = some (R.holding (live ++ extra) created') := hdoc
    simp only [Option.map_some, hlook, hk, hversion, Option.elim_some, Option.bind_some] at hs₂ ⊢
    exact ⟨rfl, frame _ _ rfl hs₂⟩

theorem Settled.readMain (h : R.Settled live ov) (host : Host) {name : String}
    (hk : FileKind.classify name = .main R.file) : (ov.read host name).2 = ov := by
  obtain ⟨created, hd⟩ := h.document
  have hc : (R.holding live created).composite.dirty = false := R.clean
  simp only [Overlay.read, hk, withWorkspace, Workspace.withOpen, h.isOpen, Workspace.withDocument, hd,
    Overlay.readMain, Document.mainModule, Document.refresh_of_clean hc, Workspace.put_self hd]

def sent (w : Watchers Listener) (name text : String) (version : Int) : List Delivery :=
  (w.forFile name).map fun s => ⟨s.id, [⟨none, text⟩], version⟩

theorem deliverAll_clients {changes : List Change} {version : Int}
    {subs : List (Subscription Listener)} (h : ∀ s ∈ subs, s.listener = .client) (ov : Overlay) :
    deliverAll changes version subs ov = (subs.map fun s => ⟨s.id, changes, version⟩, ov) := by
  induction subs with
  | nil => rfl
  | cons s subs ih =>
    have hs := h s List.mem_cons_self
    have ih := ih fun t ht => h t (List.mem_cons_of_mem _ ht)
    simp [deliverAll, deliver, hs, ih]

theorem Settled.notify (h : R.Settled live ov) {name : String} (hm : MadeFrom R.file name)
    (text : String) (version : Int) :
    (ov.notify name [⟨none, text⟩] version).deliveries = sent R.watchers name text version ∧
      (ov.notify name [⟨none, text⟩] version).overlay = ov := by
  have hc : ∀ s ∈ R.watchers.forFile name, s.listener = .client := by
    intro s hs
    obtain ⟨hlive, hfile⟩ := Watchers.mem_forFile.1 hs
    exact R.clients s hlive (hfile ▸ hm)
  simp only [Overlay.notify, h.watchers, deliverAll_clients hc, sent, and_self]

theorem Settled.tell_block (h : R.Settled live ov) (host : Host) (evicted : List String)
    (version : Int) {name : String} {i : Identifier} {s : Slot}
    (hk : FileKind.classify name = .block i) (hi : i.file = R.file) (hs : i.slot? = some s) :
    (evicted.contains name || !live.any (·.key = name)) = false ∧
        tell host R.file evicted version name ov = ⟨0, [], ov⟩ ∨
      (evicted.contains name || !live.any (·.key = name)) = true ∧
        ∃ created,
          R.Settled ((R.holding live created).composite.document R.options s).2.live
            (tell host R.file evicted version name ov).overlay ∧
          (tell host R.file evicted version name ov).deliveries =
            ((R.holding live created).shown? R.options s).toList.flatMap
              (sent R.watchers name · version) := by
  have hnews := h.needsNews evicted hk hi
  cases hn : (evicted.contains name || !live.any (·.key = name)) with
  | false =>
    refine .inl ⟨rfl, ?_⟩
    simp only [tell, hnews, hn, Bool.false_eq_true, if_false]
  | true =>
    refine .inr ⟨rfl, ?_⟩
    obtain ⟨created, htext, hset⟩ := h.readBlock (FileKind.parse_of_classify hk) hi hs
    refine ⟨created, ?_⟩
    have hread : read host name ov = ((R.holding live created).shown? R.options s,
        { ov with workspace := (Overlay.readBlock R.file name ov.workspace).2 }) := by
      simp only [read, hk, hi, withWorkspace, htext]
    simp only [tell, hnews, hn, if_true, hread]
    cases ht : (R.holding live created).shown? R.options s with
    | none => exact ⟨hset, rfl⟩
    | some text =>
      obtain ⟨hdel, hov⟩ := hset.notify (.inr ⟨i, hk, hi⟩) text version
      simp only [hdel, hov, Option.toList_some, List.flatMap_cons, List.flatMap_nil, List.append_nil]
      exact ⟨hset, trivial⟩

theorem tell_of_not_madeFrom (host : Host) (evicted : List String) (version : Int) {file name : String}
    (h : ¬ MadeFrom file name) (ov : Overlay) :
    tell host file evicted version name ov = ⟨0, [], ov⟩ := by
  have hnews : needsNews file evicted name ov = (false, ov) := by
    unfold needsNews
    split
    · next f hk =>
      have hf : f ≠ file := fun hf => h (.inl (hf ▸ hk))
      simp [hf]
    · next i hk =>
      have hf : i.file ≠ file := fun hf => h (.inr ⟨i, hk, hf⟩)
      simp [hf]
    · rfl
    · rfl
  simp only [tell, hnews, Bool.false_eq_true, if_false]

theorem Settled.tell_main (h : R.Settled live ov) (host : Host) (evicted : List String)
    (version : Int) {name : String} (hk : FileKind.classify name = .main R.file) :
    (tell host R.file evicted version name ov).overlay = ov ∧
      ∃ text : Option String, (tell host R.file evicted version name ov).deliveries =
        text.toList.flatMap (sent R.watchers name · version) := by
  have hnews : ov.needsNews R.file evicted name = (true, ov) := by simp [Overlay.needsNews, hk]
  have hread := h.readMain host hk
  simp only [tell, hnews, if_true]
  cases ht : (read host name ov).1 with
  | none => exact ⟨hread, none, rfl⟩
  | some text =>
    obtain ⟨hdel, hov⟩ := h.notify (.inl hk) text version
    simp only [hread, hdel, hov]
    exact ⟨trivial, some text, by simp⟩

theorem of_mem_sent {w : Watchers Listener} {name : String} {text : Option String} {version : Int}
    {y : Delivery} (h : y ∈ text.toList.flatMap (sent w name · version)) :
    ∃ t ∈ w.live, t.file = name ∧ y.subscription = t.id := by
  obtain ⟨t, -, ht⟩ := List.mem_flatMap.1 h
  obtain ⟨s, hs, rfl⟩ := List.mem_map.1 ht
  obtain ⟨hlive, hfile⟩ := Watchers.mem_forFile.1 hs
  exact ⟨s, hlive, hfile, rfl⟩

def Stale (evicted : List String) (live : List BlockDocument) (name : String) : Prop :=
  name ∈ evicted ∨ ¬ ∃ b ∈ live, b.key = name

/-- A round goes from `live` to `live'` over these names: documents are only added, one under each
name that a stale name leads to, and only those who watch the names are told. -/
structure Passes (R : Round) (evicted : List String) (names : List String) (live : List BlockDocument)
    (m : Notified) (live' : List BlockDocument) : Prop where
  settled : R.Settled live' m.overlay
  grows : live <+: live'
  keys : ∀ x, (∃ b ∈ live', b.key = x) ↔ (∃ b ∈ live, b.key = x) ∨
    ∃ name ∈ names, R.document.composite.Leads R.options name x ∧ Stale evicted live name
  told : ∀ y ∈ m.deliveries, ∃ t ∈ R.watchers.live, t.file ∈ names ∧ y.subscription = t.id

theorem stale_iff {evicted : List String} {live : List BlockDocument} {name : String} :
    (evicted.contains name || !live.any (·.key = name)) = true ↔ Stale evicted live name := by
  simp [Stale]

theorem Settled.passes_idle (h : R.Settled live ov) {evicted : List String} {name : String}
    {m : Notified} (hov : m.overlay = ov)
    (hdel : ∀ y ∈ m.deliveries, ∃ t ∈ R.watchers.live, t.file = name ∧ y.subscription = t.id)
    (hno : ∀ x, R.document.composite.Leads R.options name x → ¬ Stale evicted live name) :
    R.Passes evicted [name] live m live where
  settled := hov ▸ h
  grows := List.prefix_rfl
  keys x := by
    refine ⟨.inl, fun hx => hx.elim id ?_⟩
    rintro ⟨n, hn, hl, hs⟩
    rw [List.mem_singleton.1 hn] at hl hs
    exact absurd hs (hno x hl)
  told y hy := by simpa using hdel y hy

theorem Settled.passes_tell (h : R.Settled live ov) (host : Host) (evicted : List String)
    (version : Int) (name : String) :
    ∃ live', R.Passes evicted [name] live (tell host R.file evicted version name ov) live' := by
  by_cases hm : MadeFrom R.file name
  case neg =>
    have htell := tell_of_not_madeFrom host evicted version hm ov
    refine ⟨live, h.passes_idle (by rw [htell]) (by simp [htell]) ?_⟩
    rintro x ⟨i, s, hk, hi, -⟩
    exact absurd (.inr ⟨i, hk, hi.trans R.named⟩) hm
  rcases hm with hk | ⟨i, hk, hi⟩
  · obtain ⟨hov, text, hdel⟩ := h.tell_main host evicted version hk
    refine ⟨live, h.passes_idle hov (fun y hy => of_mem_sent (hdel ▸ hy)) ?_⟩
    rintro x ⟨i, s, hi, -⟩
    rw [hk] at hi
    contradiction
  · obtain ⟨hv, -, -⟩ := Identifier.parse_eq_ok (FileKind.parse_of_classify hk)
    obtain ⟨s, hs⟩ := Option.isSome_iff_exists.1 (Identifier.isSome_slot?_of_validate hv)
    have leads : ∀ x, R.document.composite.Leads R.options name x ↔
        R.document.composite.blockId? R.options s = some x := by
      intro x
      constructor
      · rintro ⟨j, t, hj, -, ht, hx⟩
        rw [hk, FileKind.block.injEq] at hj
        subst hj
        rw [hs, Option.some.injEq] at ht
        exact ht ▸ hx
      · exact fun hx => ⟨i, s, hk, hi.trans R.named.symm, hs, hx⟩
    rcases h.tell_block host evicted version hk hi hs with ⟨hn, htell⟩ | ⟨hn, created, hset, hdel⟩
    · refine ⟨live, h.passes_idle (by rw [htell]) (by simp [htell]) fun x _ hstale => ?_⟩
      rw [stale_iff.2 hstale] at hn
      contradiction
    · have hstale := stale_iff.1 hn
      obtain ⟨extra, created', hlive, hkeys⟩ :=
        Composite.document_spec R.options (R.holding live created).composite s
      rw [hlive] at hset
      refine ⟨live ++ extra, hset, List.prefix_append _ _, fun x => ?_, fun y hy => ?_⟩
      · simp only [List.mem_singleton, exists_eq_left, leads, hstale, and_true]
        exact hkeys x
      · simpa using of_mem_sent (hdel ▸ hy)

theorem Passes.append {evicted names names' : List String} {m m' : Notified}
    {live' live'' : List BlockDocument} (h : R.Passes evicted names live m live')
    (h' : R.Passes evicted names' live' m' live'') :
    R.Passes evicted (names ++ names') live
      ⟨m.count + m'.count, m.deliveries ++ m'.deliveries, m'.overlay⟩ live'' where
  settled := h'.settled
  grows := h.grows.trans h'.grows
  keys x := by
    rw [h'.keys x]
    constructor
    · rintro (hx | ⟨name, hn, hl, hs⟩)
      · rcases (h.keys x).1 hx with hx | ⟨name, hn, hl, hs⟩
        · exact .inl hx
        · exact .inr ⟨name, List.mem_append_left _ hn, hl, hs⟩
      · refine .inr ⟨name, List.mem_append_right _ hn, hl, hs.imp id fun hno hb => hno ?_⟩
        exact (h.keys name).2 (.inl hb)
    · rintro (hx | ⟨name, hn, hl, hs⟩)
      · exact .inl ((h.keys x).2 (.inl hx))
      · rcases List.mem_append.1 hn with hn | hn
        · exact .inl ((h.keys x).2 (.inr ⟨name, hn, hl, hs⟩))
        · -- a document made for the name meanwhile is one for `x`
          by_cases hb : ∃ b ∈ live', b.key = name
          · rcases hs with hs | hno
            · exact .inr ⟨name, hn, hl, .inl hs⟩
            · obtain ⟨k, -, hlk, -⟩ := ((h.keys name).1 hb).resolve_left hno
              exact .inl ((hlk.eq hl) ▸ hb)
          · exact .inr ⟨name, hn, hl, .inr hb⟩
  told y hy := by
    rcases List.mem_append.1 hy with hy | hy
    · obtain ⟨t, ht, hn, hid⟩ := h.told y hy
      exact ⟨t, ht, List.mem_append_left _ hn, hid⟩
    · obtain ⟨t, ht, hn, hid⟩ := h'.told y hy
      exact ⟨t, ht, List.mem_append_right _ hn, hid⟩

theorem Settled.passes_announce (h : R.Settled live ov) (host : Host) (evicted : List String)
    (version : Int) (names : List String) :
    ∃ live', R.Passes evicted names live (announce host R.file evicted version names ov) live' := by
  induction names generalizing live ov with
  | nil => exact ⟨live, h, List.prefix_rfl, by simp, by simp [announce]⟩
  | cons name names ih =>
    obtain ⟨live', htell⟩ := h.passes_tell host evicted version name
    obtain ⟨live'', hrest⟩ := ih htell.settled
    exact ⟨live'', htell.append hrest⟩

theorem announce_append (host : Host) (file : String) (evicted : List String) (version : Int)
    (names names' : List String) (ov : Overlay) :
    (announce host file evicted version (names ++ names') ov).deliveries =
        (announce host file evicted version names ov).deliveries ++
          (announce host file evicted version names'
            (announce host file evicted version names ov).overlay).deliveries ∧
      (announce host file evicted version (names ++ names') ov).overlay =
        (announce host file evicted version names'
          (announce host file evicted version names ov).overlay).overlay := by
  induction names generalizing ov with
  | nil => simp [announce]
  | cons name names ih =>
    have ih := ih (tell host file evicted version name ov).overlay
    simp only [List.cons_append, announce_cons, ih.1, ih.2, List.append_assoc, and_self]

theorem shown?_again (live extra : List BlockDocument) (created created' : Nat) (s : Slot) :
    (R.holding (((R.holding live created).composite.document R.options s).2.live ++ extra)
        created').shown? R.options s =
      (R.holding live created).shown? R.options s := by
  obtain ⟨made, created'', hd, -⟩ :=
    Composite.document_spec R.options (R.holding live created).composite s
  have hagain :=
    Composite.document_again R.options (R.holding live created).composite s extra created'
  simp only [Document.shown?]
  rw [hd] at hagain ⊢
  rw [← hagain]
  rfl

theorem filter_sent {w : Watchers Listener} (h : w.Numbered) {s : Subscription Listener}
    (hs : s ∈ w.live) (text : String) (version : Int) :
    (sent w s.file text version).filter (·.subscription = s.id) = [⟨s.id, [⟨none, text⟩], version⟩] := by
  have hone := Watchers.filter_id (h.nodup_forFile s.file) (Watchers.mem_forFile.2 ⟨hs, rfl⟩)
  rw [sent, List.filter_map]
  exact congrArg (List.map fun t => (⟨t.id, [⟨none, text⟩], version⟩ : Delivery)) hone

theorem filter_other {w : Watchers Listener} (h : w.Numbered) {s : Subscription Listener}
    (hs : s ∈ w.live) {l : List Delivery} {names : List String}
    (hl : ∀ y ∈ l, ∃ t ∈ w.live, t.file ∈ names ∧ y.subscription = t.id) (hn : s.file ∉ names) :
    l.filter (·.subscription = s.id) = [] := by
  refine List.filter_eq_nil_iff.2 fun y hy hys => hn ?_
  obtain ⟨t, ht, htn, hid⟩ := hl y hy
  have hts : t = s := h.eq_of_id ht hs (by simpa [hid] using hys)
  exact hts ▸ htn

/-- An earlier name that is told leads to `name`, so that the document of `name` is there when its
turn comes. -/
def Forestalled (R : Round) (evicted : List String) (live : List BlockDocument) (name : String) : Prop :=
  ∃ earlier ∈ R.watchers.files, earlier < name ∧
    R.document.composite.Leads R.options earlier name ∧ Stale evicted live earlier

/-- What one who watches a block is told in a round: the text that the block is then read as, or
nothing. -/
theorem Settled.round (h : R.Settled live ov) (hw : R.watchers.Numbered) (host : Host)
    (evicted : List String) (version : Int) {s : Subscription Listener} (hs : s ∈ R.watchers.live)
    {i : Identifier} (hk : FileKind.classify s.file = .block i) (hi : i.file = R.file) :
    let m := announce host R.file evicted version R.watchers.files ov
    let told := s.file ∈ evicted ∨
      (¬ ∃ b ∈ live, b.key = s.file) ∧ ¬ R.Forestalled evicted live s.file
    (told → m.deliveries.filter (·.subscription = s.id) =
      ((read host s.file m.overlay).1.map fun text => ⟨s.id, [⟨none, text⟩], version⟩).toList) ∧
      (¬ told → m.deliveries.filter (·.subscription = s.id) = []) := by
  intro m told
  obtain ⟨hv, -, -⟩ := Identifier.parse_eq_ok (FileKind.parse_of_classify hk)
  obtain ⟨slot, hslot⟩ := Option.isSome_iff_exists.1 (Identifier.isSome_slot?_of_validate hv)
  obtain ⟨pre, post, hfiles, hnpost, hpre⟩ :=
    split_of_pairwise (pairwise_sortedSet _) (Watchers.mem_files.2 ⟨s, hs, rfl⟩)
  have hnpre : s.file ∉ pre := fun hm => String.lt_irrefl _ ((hpre _).1 hm).2
  have hfore : R.Forestalled evicted live s.file ↔
      ∃ name ∈ pre, R.document.composite.Leads R.options name s.file ∧ Stale evicted live name := by
    simp only [Forestalled, hpre, and_assoc]
    rfl
  obtain ⟨live₁, hp⟩ := h.passes_announce host evicted version pre
  have hstale : Stale evicted live₁ s.file ↔ told := by
    simp only [Stale, hp.keys, not_or, told, hfore]
  have hround := announce_append host R.file evicted version pre (s.file :: post) ov
  rw [announce_cons, ← hfiles] at hround
  dsimp only at hround
  have hdeliveries : m.deliveries = _ := hround.1
  have hoverlay : m.overlay = _ := hround.2
  have hquiet := filter_other hw hs hp.told hnpre
  rcases hp.settled.tell_block host evicted version hk hi hslot with
    ⟨hn, htell⟩ | ⟨hn, created, hset, hdel⟩
  · have hnot : ¬ told := by
      rw [← hstale, ← stale_iff, hn]
      simp
    obtain ⟨live₂, hq⟩ := hp.settled.passes_announce host evicted version post
    refine ⟨fun ht => absurd ht hnot, fun _ => ?_⟩
    rw [hdeliveries, htell, List.nil_append, List.filter_append, hquiet,
      filter_other hw hs hq.told hnpost, List.append_nil]
  · have htold : told := hstale.1 (stale_iff.1 hn)
    obtain ⟨live₂, hq⟩ := hset.passes_announce host evicted version post
    have hread : (read host s.file m.overlay).1 = (R.holding live₁ created).shown? R.options slot := by
      obtain ⟨extra, hlive⟩ := hq.grows
      obtain ⟨created', htext, -⟩ :=
        hq.settled.readBlock (FileKind.parse_of_classify hk) hi hslot
      rw [← hlive, shown?_again] at htext
      rw [hoverlay, ← htext]
      simp only [read, hk, hi, withWorkspace]
    refine ⟨fun _ => ?_, fun hno => absurd htold hno⟩
    rw [hdeliveries, List.filter_append, List.filter_append, hquiet,
      filter_other hw hs hq.told hnpost, hdel, hread, List.nil_append, List.append_nil]
    cases (R.holding live₁ created).shown? R.options slot with
    | none => rfl
    | some text => simp [filter_sent hw hs]

end Round

end Overlay

end BlockLens
