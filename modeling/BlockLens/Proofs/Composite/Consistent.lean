import BlockLens.Document.Basic
import BlockLens.Proofs.Composite.Reparse
/-!
What holds of a composite between any two operations: its documents are those it would make anew,
its main module is that of its outline, and a parse without errors leaves nothing of earlier ones.
-/

set_option autoImplicit false

namespace BlockLens

/-- Equal in all that decides what a document answers. -/
def BlockDocument.Twin (a b : BlockDocument) : Prop :=
  a.id = b.id ∧ a.slot = b.slot ∧ a.transformer = b.transformer ∧ a.scriptImport = b.scriptImport

theorem BlockDocument.Twin.generate {a b : BlockDocument} (h : a.Twin b) : a.generate = b.generate := by
  obtain ⟨hi, hs, ht, hc⟩ := h
  funext x
  simp [BlockDocument.generate, hi, hs, ht, hc]

namespace Composite

open Outline

variable (o : Options)

/-- The document that a composite without documents makes for a slot. -/
def anew (file : String) (d : Outline) (s : Slot) : Option BlockDocument :=
  (document o s { file, outline := d }).1

theorem anew_eq_some {file : String} {d : Outline} {s : Slot} {b : BlockDocument} :
    anew o file d s = some b ↔
      ∃ e i, d.get? s = some e ∧ idIn o file d s = some i ∧
        b = ⟨i, s, e, o.registry.get? e.block.kind,
          if s = .template then scriptImport o file d else none, 0⟩ := by
  cases he : d.get? s with
  | none => simp [anew, document, he]
  | some e =>
    cases hi : idIn o file d s with
    | none => simp [anew, document, he, hi]
    | some i => simp [anew, document, he, hi, eq_comm]

theorem anew_eq_none {file : String} {d : Outline} {s : Slot} :
    anew o file d s = none ↔ idIn o file d s = none := by
  cases he : d.get? s with
  | none => simp [anew, document, idIn, he]
  | some e => cases hi : idIn o file d s <;> simp [anew, document, he, hi]

theorem key_of_anew {file : String} {d : Outline} {s : Slot} {b : BlockDocument} {i : Identifier}
    (hb : anew o file d s = some b) (hi : idIn o file d s = some i) : b.key = i.text := by
  obtain ⟨e, j, -, hj, rfl⟩ := (anew_eq_some o).1 hb
  rw [hi, Option.some.injEq] at hj
  rw [hj, BlockDocument.key]

def mainOf (file : String) (d : Outline) : MainModule :=
  MainModule.generate file (d.slots.map (·.1)) (importable o file d) o.runtime

def outlineOf (text : String) : Outline := scripted (Outline.ofBlocks 0 (o.parser text).blocks).1

def problemsOf (text : String) : List ParseError :=
  (o.parser text).errors ++ (Outline.ofBlocks 0 (o.parser text).blocks).2

structure Consistent (c : Composite) : Prop where
  kinded : c.outline.Kinded
  current : ∀ d ∈ c.live, ∃ b, anew o c.file c.outline d.slot = some b ∧ d.Twin b
  keys : (c.live.map (·.key)).Nodup
  main : c.parsed.isSome = true → c.main = mainOf o c.file c.outline
  unparsed : c.parsed = none → c.dirty = true ∧ c.live = []
  errors : ∀ t, c.parsed = some t → c.errors = problemsOf o t
  faultless : ∀ t, c.parsed = some t → c.errors = [] → c.outline.sameBlocks (outlineOf o t) = true

theorem consistent_new (file : String) : Consistent o { file } where
  kinded := kinded_empty
  current := by simp
  keys := by simp
  main := by simp
  unparsed := by simp
  errors := by simp
  faultless := by simp

variable {o}

theorem Consistent.markDirty {c : Composite} (h : Consistent o c) :
    Consistent o { c with dirty := true } :=
  { h with unparsed := fun hp => ⟨rfl, (h.unparsed hp).2⟩ }

theorem Consistent.drain {c : Composite} (h : Consistent o c) :
    Consistent o { c with evicted := [] } := { h with }

def next (o : Options) (text : String) (c : Composite) : Outline :=
  merge (if c.parsed.isSome then some c.outline else none)
    (Outline.ofBlocks c.parses (o.parser text).blocks).1 (!(problemsOf o text).isEmpty)

theorem errors_reparse (o : Options) (text : String) (c : Composite) :
    (reparse o text c).errors = problemsOf o text := by
  simp only [reparse, problemsOf, (sameBlocks_ofBlocks c.parses 0 _).2]

theorem outline_reparse (o : Options) (text : String) (c : Composite) :
    (reparse o text c).outline = next o text c := by
  simp only [reparse, next, problemsOf, (sameBlocks_ofBlocks c.parses 0 _).2]

theorem Consistent.prev_kinded {c : Composite} (h : Consistent o c) :
    ∀ p ∈ (if c.parsed.isSome then some c.outline else none), p.Kinded := by
  intro p hp
  split at hp
  · simp only [Option.mem_def, Option.some.injEq] at hp
    exact hp ▸ h.kinded
  · simp at hp

theorem Consistent.kinded_next {c : Composite} (h : Consistent o c) (text : String) :
    (next o text c).Kinded :=
  kinded_merge h.prev_kinded (kinded_ofBlocks _ _) _

theorem Consistent.mem_entries_next {c : Composite} (h : Consistent o c) {text : String} {e : Entry}
    (he : e ∈ (next o text c).entries) :
    (∃ i, e.stamp = .parsed c.parses i ∧ (o.parser text).blocks[i]? = some e.block) ∨
      e = fallback ∨ e ∈ c.outline.entries := by
  rcases mem_entries_merge h.prev_kinded he with he | he | ⟨p, hp, he⟩
  · exact .inl (mem_entries_ofBlocks he)
  · exact .inr (.inl he)
  · split at hp
    · simp only [Option.mem_def, Option.some.injEq] at hp
      exact .inr (.inr (hp ▸ he))
    · simp at hp

def staleKeys (o : Options) (text : String) (c : Composite) : List String :=
  (staleSlots o c.file c.outline (next o text c)).filterMap fun s =>
    (idIn o c.file c.outline s).map (·.text)

theorem live_reparse {text : String} {c : Composite} (h : c.parsed.isSome = true) :
    (reparse o text c).live = (evict (staleKeys o text c) c.live).1 := by
  have hn := outline_reparse o text c
  simp only [reparse, h, if_true] at hn ⊢
  simp only [staleKeys, hn]

theorem sublist_live_reparse (text : String) (c : Composite) :
    (reparse o text c).live.Sublist c.live := sublist_evict _ _

theorem Consistent.idIn_of_live {c : Composite} (h : Consistent o c) {d : BlockDocument}
    (hd : d ∈ c.live) : idIn o c.file c.outline d.slot = some d.id := by
  obtain ⟨b, hb, hi, -⟩ := h.current d hd
  obtain ⟨e, i, -, hid, rfl⟩ := (anew_eq_some o).1 hb
  rw [hid, hi]

theorem Consistent.isSome_parsed {c : Composite} (h : c.Consistent o) (hclean : c.dirty = false) :
    c.parsed.isSome = true := by
  cases hp : c.parsed with
  | none =>
    rw [(h.unparsed hp).1] at hclean
    contradiction
  | some t => rfl

theorem Consistent.transformer_of_live {c : Composite} (h : c.Consistent o) {b : BlockDocument} (hb : b ∈ c.live) :
    b.transformer = o.registry.get? b.slot.kind := by
  obtain ⟨a, ha, -, -, htransformer, -⟩ := h.current b hb
  obtain ⟨e, i, he, -, rfl⟩ := (anew_eq_some o).1 ha
  rw [htransformer, h.kinded.kind_eq he]

/-- Only a document whose slot did not go stale survives a parse. -/
theorem Consistent.not_stale_of_mem {c : Composite} (h : Consistent o c) {text : String}
    {d : BlockDocument} (hd : d ∈ (Composite.reparse o text c).live) :
    c.parsed.isSome = true ∧ d.slot ∉ staleSlots o c.file c.outline (next o text c) := by
  have hc := (sublist_live_reparse text c).mem hd
  have hp : c.parsed.isSome = true := by
    cases hp : c.parsed with
    | none => rw [(h.unparsed hp).2] at hc; simp at hc
    | some t => rfl
  refine ⟨hp, fun hstale => ?_⟩
  rw [live_reparse hp] at hd
  refine (mem_evict.1 hd).2 (List.mem_filterMap.2 ⟨d.slot, hstale, ?_⟩)
  rw [h.idIn_of_live hc]
  rfl

theorem Consistent.current_reparse {c : Composite} (h : Consistent o c) {text : String}
    {d : BlockDocument} (hd : d ∈ (reparse o text c).live) :
    ∃ b, anew o c.file (next o text c) d.slot = some b ∧ d.Twin b := by
  obtain ⟨-, hfresh⟩ := h.not_stale_of_mem hd
  obtain ⟨b, hb, hi, hs, ht, himp⟩ := h.current d ((sublist_live_reparse text c).mem hd)
  obtain ⟨e, i, he, hid, rfl⟩ := (anew_eq_some o).1 hb
  have hk := h.kinded_next text
  have hblock := map_block_of_not_stale o h.kinded hk (by simp [he]) hfresh
  rw [he, Option.map_some] at hblock
  obtain ⟨e', he', hee⟩ := Option.map_eq_some_iff.1 hblock.symm
  have hid' : idIn o c.file (next o text c) d.slot = some i := by
    rw [← hid]
    exact idIn_congr o (by simp [he, he', hee])
  refine ⟨_, (anew_eq_some o).2 ⟨e', i, he', hid', rfl⟩, hi, rfl, by simp [ht, hee], ?_⟩
  rw [himp]
  by_cases hslot : d.slot = .template
  · rw [hslot] at hfresh he
    simp only [hslot, if_true]
    exact scriptImport_of_not_stale o h.kinded hk (by simp [he]) hfresh
  · simp [hslot]

theorem Consistent.reparse {c : Composite} (h : Consistent o c) (text : String) :
    Consistent o (reparse o text c) where
  kinded := by rw [outline_reparse]; exact h.kinded_next text
  current d hd := by rw [outline_reparse]; exact h.current_reparse hd
  keys := h.keys.sublist ((sublist_live_reparse text c).map _)
  main _ := by
    have hn := outline_reparse o text c
    simp only [Composite.reparse] at hn ⊢
    simp only [mainOf]
  unparsed hp := by simp [Composite.reparse] at hp
  errors t ht := by
    simp only [Composite.reparse, Option.some.injEq] at ht
    rw [errors_reparse, ht]
  faultless t ht he := by
    simp only [Composite.reparse, Option.some.injEq] at ht
    subst ht
    rw [errors_reparse] at he
    rw [outline_reparse, next, he, List.isEmpty_nil, Bool.not_true]
    exact sameBlocks_trans (sameBlocks_merge h.prev_kinded (kinded_ofBlocks _ _))
      (sameBlocks_scripted (sameBlocks_ofBlocks _ _ _).1)

theorem Consistent.refresh {c : Composite} (h : Consistent o c) (text : String) :
    Consistent o (refresh o text c) := by
  rcases refresh_cases o text c with ⟨-, hr⟩ | ⟨-, hp, hr⟩ | ⟨-, -, hr⟩
  · rwa [hr]
  · rw [hr]
    exact { h with unparsed := fun hn => by simp [hp] at hn }
  · rw [hr]
    exact h.reparse text

theorem document_of_find {s : Slot} {c : Composite} {i : Identifier} {d : BlockDocument}
    (hi : idIn o c.file c.outline s = some i) (hf : c.live.find? (·.key = i.text) = some d) :
    document o s c = (some d, c) := by
  obtain ⟨e, he⟩ := isSome_get?_of_idIn o hi
  simp [document, he, hi, hf]

theorem document_of_not_find {s : Slot} {c : Composite} {i : Identifier}
    (hi : idIn o c.file c.outline s = some i) (hf : c.live.find? (·.key = i.text) = none) :
    ∃ b, anew o c.file c.outline s = some b ∧
      document o s c =
        (some { b with serial := c.created },
          { c with live := c.live ++ [{ b with serial := c.created }], created := c.created + 1 }) := by
  obtain ⟨e, he⟩ := isSome_get?_of_idIn o hi
  refine ⟨_, (anew_eq_some o).2 ⟨e, i, he, hi, rfl⟩, ?_⟩
  simp [document, he, hi, hf]

theorem document_of_no_id {s : Slot} {c : Composite} (hi : idIn o c.file c.outline s = none) :
    document o s c = (none, c) := by
  simp only [document, hi]
  split <;> simp_all

theorem Consistent.document {c : Composite} (h : Consistent o c) (s : Slot) (hp : c.parsed.isSome = true) :
    Consistent o (document o s c).2 := by
  cases hi : idIn o c.file c.outline s with
  | none => rw [document_of_no_id hi]; exact h
  | some i =>
    cases hf : c.live.find? (·.key = i.text) with
    | some d => rw [document_of_find hi hf]; exact h
    | none =>
      obtain ⟨b, hb, hd⟩ := document_of_not_find hi hf
      obtain ⟨e, j, he, hj, rfl⟩ := (anew_eq_some o).1 hb
      rw [hi, Option.some.injEq] at hj
      subst hj
      rw [hd]
      refine { h with current := fun d hd => ?_, keys := ?_, unparsed := fun hn => ?_ }
      · rcases List.mem_append.1 hd with hd | hd
        · exact h.current d hd
        · rw [List.mem_singleton.1 hd]
          exact ⟨_, hb, rfl, rfl, rfl, rfl⟩
      · simp only [List.map_append, List.map_cons, List.map_nil]
        refine List.nodup_append.2 ⟨h.keys, by simp, ?_⟩
        intro k hk k' hk' heq
        obtain ⟨d, hd, rfl⟩ := List.mem_map.1 hk
        have hne := List.find?_eq_none.1 hf d hd
        simp only [List.mem_singleton] at hk'
        simp_all [BlockDocument.key]
      · change c.parsed = none at hn
        simp [hn] at hp

theorem Consistent.slot_eq {c : Composite} (h : Consistent o c)
    (ht : ∀ e ∈ c.outline.entries, e.block.kind.IsTag) {s t : Slot} {i j : Identifier}
    (hi : idIn o c.file c.outline s = some i) (hj : idIn o c.file c.outline t = some j)
    (htext : i.text = j.text) : s = t := by
  have tag : ∀ {t : Slot} {i : Identifier}, idIn o c.file c.outline t = some i → t.kind.IsTag := by
    intro t i hi
    obtain ⟨e, he⟩ := isSome_get?_of_idIn o hi
    exact h.kinded.kind_eq he ▸ ht e (mem_entries_of_get? he)
  exact (slot_eq_of_text_eq o hi hj (tag hi) (tag hj) htext).1

/-- With kinds from tags, the document of a slot is the one that would be made anew. -/
theorem Consistent.document_twin {c : Composite} (h : Consistent o c)
    (ht : ∀ e ∈ c.outline.entries, e.block.kind.IsTag) (s : Slot) :
    ((Composite.document o s c).1 = none ∧ anew o c.file c.outline s = none) ∨
      ∃ d b, (Composite.document o s c).1 = some d ∧ anew o c.file c.outline s = some b ∧ d.Twin b := by
  cases hi : idIn o c.file c.outline s with
  | none => exact .inl ⟨by rw [document_of_no_id hi], (anew_eq_none o).2 hi⟩
  | some i =>
    cases hf : c.live.find? (·.key = i.text) with
    | some d =>
      obtain ⟨b, hb, htwin⟩ := h.current d (List.mem_of_find?_eq_some hf)
      obtain ⟨e, j, he, hj, hbe⟩ := (anew_eq_some o).1 hb
      have hkey : d.key = i.text := by simpa using List.find?_some hf
      have hdid : d.id = j := by rw [htwin.1, hbe]
      have hs := h.slot_eq ht hj hi (by rw [← hkey, ← hdid]; rfl)
      exact .inr ⟨d, b, by rw [document_of_find hi hf], hs ▸ hb, htwin⟩
    | none =>
      obtain ⟨b, hb, hd⟩ := document_of_not_find hi hf
      exact .inr ⟨{ b with serial := c.created }, b, by rw [hd], hb, rfl, rfl, rfl, rfl⟩

end Composite

end BlockLens
