import BlockLens.Proofs.Composite.Lifetime
import BlockLens.Proofs.Overlay.Announce

set_option autoImplicit false

namespace BlockLens

open Text Outline

namespace Identifier

/-- The part of a name before its first marker is `file`. -/
def Belongs (name file : String) : Prop :=
  ∃ query, name = file ++ "?vue" ++ query ∧
    ∀ other rest, name = other ++ "?vue" ++ rest → file.length ≤ other.length

theorem compositeOf?_eq_some {name file : String} :
    compositeOf? name = some file ↔ Belongs name file := by
  have spell : ∀ b q : String, name = b ++ "?vue" ++ q ↔
      name.toList = b.toList ++ marker ++ q.toList := by
    intro b q
    rw [← String.toList_inj, String.toList_append, String.toList_append]
    rfl
  simp only [compositeOf?, Option.map_eq_some_iff, Prod.exists, cut?_eq_some_iff]
  constructor
  · rintro ⟨b, r, ⟨hs, hmin⟩, rfl⟩
    refine ⟨String.ofList r, (spell _ _).2 (by simpa using hs), fun other rest h => ?_⟩
    have hle := hmin _ _ ((spell other rest).1 h)
    rwa [← String.length_toList, String.toList_ofList, ← String.length_toList]
  · rintro ⟨query, hs, hmin⟩
    refine ⟨file.toList, query.toList, ⟨(spell _ _).1 hs, fun b r h => ?_⟩, String.ofList_toList⟩
    have hle := hmin (String.ofList b) (String.ofList r) ((spell _ _).2 (by simpa using h))
    rwa [String.length_ofList, ← String.length_toList] at hle

theorem validate_ne_foreignFile (i : Identifier) (x y : String) :
    i.validate ≠ .error (.foreignFile x y) := by
  unfold validate
  repeat' split
  all_goals simp

theorem readParts_ne_foreignFile (id : String) (file kind : List Char) (l : List (List Char))
    (x y : String) : readParts id file kind l ≠ .error (.foreignFile x y) := by
  unfold readParts
  cases h₁ : takeIndex id l with
  | error e =>
    have he : e ≠ .foreignFile x y := by
      rintro rfl
      unfold takeIndex at h₁
      repeat' split at h₁
      all_goals simp at h₁
    simpa [bind, Except.bind] using he
  | ok p =>
    cases h₂ : takeSetup id p.2 with
    | error e =>
      have he : e ≠ .foreignFile x y := by
        rintro rfl
        unfold takeSetup at h₂
        repeat' split at h₂
        all_goals simp at h₂
      simpa [bind, Except.bind, h₂] using he
    | ok q =>
      cases h₃ : takeLanguage id q.2 with
      | error e =>
        have he : e ≠ .foreignFile x y := by
          rintro rfl
          unfold takeLanguage at h₃
          repeat' split at h₃
          all_goals simp at h₃
        simpa [bind, Except.bind, h₂, h₃] using he
      | ok lang =>
        have hv := validate_ne_foreignFile
          ⟨String.ofList file, .ofTag (String.ofList kind), p.1, q.1, String.ofList lang⟩ x y
        simp only [bind, Except.bind, h₂, h₃]
        split
        · next e he => rw [he] at hv; simpa using hv
        · simp [pure, Except.pure]

theorem parse_ne_foreignFile (id x y : String) : parse id ≠ .error (.foreignFile x y) := by
  unfold parse
  repeat' split
  all_goals first | exact readParts_ne_foreignFile _ _ _ _ x y | simp

end Identifier

namespace Composite

variable {o : Options}

theorem document_fst_eq_none {c : Composite} {s : Slot} :
    (c.document o s).1 = none ↔
      c.outline.get? s = none ∨ ∃ e x, c.outline.get? s = some e ∧
        Identifier.forSlot c.file s (languageOf o e.block) = .error x := by
  have hid : (c.document o s).1 = none ↔ idIn o c.file c.outline s = none := by
    cases hi : idIn o c.file c.outline s with
    | none => simp [document_of_no_id hi]
    | some i =>
      cases hf : c.live.find? (·.key = i.text) with
      | some d => simp [document_of_find hi hf]
      | none =>
        obtain ⟨b, -, hd⟩ := document_of_not_find hi hf
        simp [hd]
  rw [hid, idIn]
  cases c.outline.get? s with
  | none => simp
  | some e =>
    cases h : Identifier.forSlot c.file s (languageOf o e.block) <;> simp [h, Except.toOption]

theorem Consistent.document_of_blockId? {c : Composite} (h : Consistent o c)
    (ht : ∀ e ∈ c.outline.entries, e.block.kind.IsTag) {s : Slot} {i : Identifier}
    (hi : idIn o c.file c.outline s = some i) :
    ∃ b, (Composite.document o s c).1 = some b ∧ b.slot = s ∧ b.id = i := by
  rcases h.document_twin ht s with ⟨-, hn⟩ | ⟨b, a, hb, ha, hid, hs, -⟩
  · simp [(anew_eq_none o).1 hn] at hi
  · obtain ⟨e, j, -, hj, rfl⟩ := (anew_eq_some o).1 ha
    rw [hi, Option.some.injEq] at hj
    exact ⟨b, hb, hs, hid.trans hj.symm⟩

end Composite

namespace Document

variable {o : Options}

theorem refresh_blockDocument (s : Slot) (d : Document) :
    (d.blockDocument o s).2.refresh o = (d.blockDocument o s).2 := by
  have hclean : (d.blockDocument o s).2.composite.dirty = false := by
    obtain ⟨live, created, hd⟩ := blockDocument_eq (o := o) s d
    rw [hd]
    exact Composite.dirty_refresh _ _
  exact refresh_of_clean hclean

/-- A name of this file that can be read is a way to ask for the slot it names. -/
theorem documentById_of_parse {d : Document} {id : String} {i : Identifier}
    (hp : Identifier.parse id = .ok i) (hf : i.file = d.composite.file) :
    ∃ s, i.slot? = some s ∧
      d.documentById o id = (.ok (d.blockDocument o s).1, (d.blockDocument o s).2) := by
  obtain ⟨hv, -, -⟩ := Identifier.parse_eq_ok hp
  obtain ⟨s, hs⟩ := Option.isSome_iff_exists.1 (Identifier.isSome_slot?_of_validate hv)
  refine ⟨s, hs, ?_⟩
  simp [documentById, Identifier.compositeOf?_of_parse hp, hf, hp, hs]

/-- After any run, to look up a name is to look up a slot. Slots share no name; the name of a slot
leads to the document of the slot, whichever of the two is asked first; and of names in general, one
of another file is refused as such, another that cannot be read is refused for what is wrong with
it, and every other gives what its slot gives. The index of a slot is a machine word. -/
theorem documentById_eq_document_of_slot
    (hp : ∀ t, ∀ b ∈ (o.parser t).blocks, ∃ tag, b.kind = .ofTag tag) (file text : String)
    (version : Int) (ms : List Move) :
    let d := (ofText file text version).run o ms
    let c := (d.refresh o).composite
    (∀ s t k, c.blockId? o s = some k → c.blockId? o t = some k → s = t) ∧
    (∀ s k, (∀ n, s.index? = some n → n < wordLimit) → c.blockId? o s = some k →
      ∃ b, b.slot = s ∧ b.key = k ∧ (d.blockDocument o s).1 = some b ∧
        d.documentById o k = (.ok (some b), (d.blockDocument o s).2) ∧
        ((d.blockDocument o s).2.documentById o k).1 = .ok (some b) ∧
        ((d.documentById o k).2.blockDocument o s).1 = some b) ∧
    ∀ id,
      ((∃ other, Identifier.Belongs id other ∧ other ≠ file) →
        d.documentById o id = (.error (.invalidIdentifier (.foreignFile id file)), d)) ∧
      ((∀ other, Identifier.Belongs id other → other = file) →
        (∀ e, Identifier.parse id = .error e →
          d.documentById o id = (.error (.invalidIdentifier e), d) ∧ ∀ x y, e ≠ .foreignFile x y) ∧
        ∀ i, Identifier.parse id = .ok i →
          ∃ s, i.slot? = some s ∧
            d.documentById o id = (.ok (d.blockDocument o s).1, (d.blockDocument o s).2) ∧
            ((d.blockDocument o s).1 = none ↔
              c.outline.get? s = none ∨ ∃ e x, c.outline.get? s = some e ∧
                Identifier.forSlot file s (Composite.languageOf o e.block) = .error x)) := by
  have hp' : ∀ t, ∀ b ∈ (o.parser t).blocks, b.kind.IsTag :=
    fun t b hb => Kind.isTag_of_exists (hp t b hb)
  intro d c
  have hd : d.Regular o file :=
    (keeps_regular hp' file).moves (fun _ _ h => h) (regular_ofText o file text version) ms
  obtain ⟨hfile, hc, ht⟩ : (d.refresh o).Regular o file := (keeps_regular hp' file).refresh d hd
  refine ⟨?_, ?_, fun id => ⟨?_, fun hown => ⟨?_, ?_⟩⟩⟩
  · intro s t k hs ht'
    obtain ⟨i, hi, hik⟩ := Option.map_eq_some_iff.1 hs
    obtain ⟨j, hj, hjk⟩ := Option.map_eq_some_iff.1 ht'
    exact hc.slot_eq ht hi hj (hik.trans hjk.symm)
  · intro s k hword hk
    obtain ⟨i, hi, rfl⟩ := Option.map_eq_some_iff.1 hk
    obtain ⟨b, hb, rfl, rfl⟩ := hc.document_of_blockId? ht hi
    obtain ⟨hslot, hif, hkind, hvalid⟩ := Composite.slot?_of_idIn o hi
    have hparse : Identifier.parse b.id.text = .ok b.id := by
      refine Identifier.parse_text hvalid ?_ fun n hn => ?_
      · obtain ⟨e, he⟩ := Composite.isSome_get?_of_idIn o hi
        rw [hkind, ← hc.kinded.kind_eq he]
        exact ht e (mem_entries_of_get? he)
      · exact hword n (by rw [(Slot.ofParts?_eq_some.1 hslot).2.1, hn])
    have hby : ∀ e : Document, e.Regular o file → e.documentById o b.id.text =
        (.ok (e.blockDocument o b.slot).1, (e.blockDocument o b.slot).2) := by
      intro e he
      obtain ⟨s, hs, h⟩ := documentById_of_parse (o := o) (d := e) hparse
        (by rw [hif, hfile, he.1])
      rw [hslot, Option.some.injEq] at hs
      rw [h, hs]
    have hfirst : (d.blockDocument o b.slot).1 = some b := hb
    have hr := (keeps_regular hp' file).document d b.slot hd
    have hagain : ((d.blockDocument o b.slot).2.blockDocument o b.slot).1 = some b := by
      rw [blockDocument, refresh_blockDocument, hr.2.1.document_of_live (mem_live_blockDocument hfirst)]
    have hd' := hby d hd
    rw [hfirst] at hd'
    refine ⟨b, rfl, rfl, hfirst, hd', ?_, ?_⟩
    · rw [hby _ hr, hagain]
    · rw [hd', hagain]
  · rintro ⟨other, hother, hne⟩
    have hf : d.composite.file = file := hd.1
    simp [documentById, Identifier.compositeOf?_eq_some.2 hother, hf, hne]
  · intro e he
    refine ⟨?_, fun x y hxy => Identifier.parse_ne_foreignFile id x y (hxy ▸ he)⟩
    have hnot : ((Identifier.compositeOf? id).any (· != d.composite.file)) = false := by
      cases hof : Identifier.compositeOf? id with
      | none => rfl
      | some other => simp [hown other (Identifier.compositeOf?_eq_some.1 hof), hd.1]
    simp [documentById, hnot, he]
  · intro i hi
    have hif := hown i.file (Identifier.compositeOf?_eq_some.1 (Identifier.compositeOf?_of_parse hi))
    obtain ⟨s, hs, h⟩ := documentById_of_parse (o := o) hi (hif.trans hd.1.symm)
    refine ⟨s, hs, h, ?_⟩
    rw [← hfile]
    exact Composite.document_fst_eq_none

theorem documentById_eq_document_of_slot_style :
    let o : Options := ⟨fun t => { blocks := [
      { kind := .script, attrs := .ofList [], span := ⟨8, 9⟩, content := "a" },
      { kind := .style, attrs := .ofList [], span := ⟨20, 21⟩, content := t }] }, .empty, none⟩
    let d := (ofText "a.vue" "x" 1).run o [.act (.document .script)]
    (∀ t, ∀ b ∈ (o.parser t).blocks, ∃ tag, b.kind = .ofTag tag) ∧
      (d.refresh o).composite.blockId? o (.style 0) =
        some "a.vue?vue&type=style&index=0&lang.css" ∧
      (∃ b, b.slot = .style 0 ∧
        (d.documentById o "a.vue?vue&type=style&index=0&lang.css").1 = .ok (some b) ∧
        (d.documentById o "a.vue?vue&type=style&index=0&lang.less").1 = .ok (some b)) ∧
      (d.documentById o "b.vue?vue&type=script&lang.js").1 =
        .error (.invalidIdentifier (.foreignFile "b.vue?vue&type=script&lang.js" "a.vue")) := by
  intro o d
  have hp : ∀ t, ∀ b ∈ (o.parser t).blocks, ∃ tag, b.kind = .ofTag tag := by
    intro t b hb
    simp only [o, List.mem_cons, List.not_mem_nil, or_false] at hb
    rcases hb with rfl | rfl
    · exact ⟨"script", rfl⟩
    · exact ⟨"style", rfl⟩
  have hid : (d.refresh o).composite.blockId? o (.style 0) =
      some "a.vue?vue&type=style&index=0&lang.css" := by decide +kernel
  have hother : Identifier.parse "a.vue?vue&type=style&index=0&lang.less" =
      .ok ⟨"a.vue", .style, some 0, false, "less"⟩ := by decide +kernel
  clear_value o
  obtain ⟨-, hown, hall⟩ := documentById_eq_document_of_slot hp "a.vue" "x" 1
    [.act (.document .script)]
  obtain ⟨b, hslot, -, hb, hby, -⟩ := hown (.style 0) _ (by simp [Slot.index?, wordLimit]) hid
  refine ⟨hp, hid, ⟨b, hslot, by rw [hby], ?_⟩, ?_⟩
  · have hsame : ∀ other, Identifier.Belongs "a.vue?vue&type=style&index=0&lang.less" other →
        other = "a.vue" := by
      intro other h
      have h' := Identifier.compositeOf?_eq_some.2 h
      rw [Identifier.compositeOf?_of_parse hother, Option.some.injEq] at h'
      exact h'.symm
    obtain ⟨s, hs, hless, -⟩ := ((hall _).2 hsame).2 _ hother
    obtain rfl : Slot.style 0 = s := by simpa [Identifier.slot?, Slot.ofParts?] using hs
    rw [hless, hb]
  · have hforeign : Identifier.Belongs "b.vue?vue&type=script&lang.js" "b.vue" :=
      Identifier.compositeOf?_eq_some.1 (by decide +kernel)
    rw [(hall _).1 ⟨"b.vue", hforeign, by decide⟩]

end Document

end BlockLens
