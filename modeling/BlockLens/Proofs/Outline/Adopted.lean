import BlockLens.Document.Composite
import BlockLens.Proofs.Outline
/-!
Adopting shares objects and does nothing else. It works slot by slot, and a slot settles the kind of
its block, so that what is taken for unchanged is equal throughout.
-/

set_option autoImplicit false

namespace BlockLens.Outline

theorem adopt_adopt (prev : Option Entry) (e : Entry) :
    Entry.adopt prev (Entry.adopt prev e) = Entry.adopt prev e := by
  rcases adopt_cases prev e with h | ⟨p, hp, h, -⟩
  · rw [h, h]
  · rw [h, hp]
    simp [Entry.adopt]

theorem number_map {f : Slot → Entry → Entry} {seen : List String} {l : List Entry}
    (hf : ∀ p ∈ number seen l, (f p.1 p.2).block.kind.tag = p.2.block.kind.tag) :
    number seen ((number seen l).map fun p => f p.1 p.2) =
      (number seen l).map fun p => (p.1, f p.1 p.2) := by
  induction l generalizing seen with
  | nil => rfl
  | cons e l ih =>
    have hhead := hf _ List.mem_cons_self
    simp only [number, List.map_cons, hhead]
    rw [ih fun p hp => hf p (List.mem_cons_of_mem _ hp)]

variable {prev d : Outline}

theorem customSlots_adopt (hp : prev.Kinded) (hd : d.Kinded) :
    (prev.adopt d).customSlots =
      d.customSlots.map fun p => (p.1, Entry.adopt (prev.get? p.1) p.2) := by
  refine number_map (f := fun s e => Entry.adopt (prev.get? s) e) fun p hm => ?_
  obtain ⟨-, -, -, hg⟩ := mem_customSlots.1 hm
  rw [block_adopt hp hd hg]

theorem slots_adopt (hp : prev.Kinded) (hd : d.Kinded) :
    (prev.adopt d).slots = d.slots.map fun p => (p.1, Entry.adopt (prev.get? p.1) p.2) := by
  have single : ∀ (s : Slot) (x : Option Entry),
      ((x.map (Entry.adopt (prev.get? s))).map (s, ·)).toList =
        (x.map (s, ·)).toList.map fun p => (p.1, Entry.adopt (prev.get? p.1) p.2) := by
    intro s x
    cases x <;> rfl
  have hstyles : ((prev.adopt d).styles.mapIdx fun i e => (Slot.style i, e)) =
      (d.styles.mapIdx fun i e => (Slot.style i, e)).map
        fun p => (p.1, Entry.adopt (prev.get? p.1) p.2) := by
    apply List.ext_getElem <;> simp [adopt, get?]
  simp only [slots, List.map_append, customSlots_adopt hp hd, hstyles, ← single]
  rfl

theorem adopt_idem (hp : prev.Kinded) (hd : d.Kinded) :
    prev.adopt (prev.adopt d) = prev.adopt d := by
  have single : ∀ (p x : Option Entry),
      (x.map (Entry.adopt p)).map (Entry.adopt p) = x.map (Entry.adopt p) := by
    intro p x
    cases x with
    | none => rfl
    | some e => simp only [Option.map_some, adopt_adopt]
  have hstyles : (prev.adopt (prev.adopt d)).styles = (prev.adopt d).styles := by
    apply List.ext_getElem <;> simp [adopt, adopt_adopt]
  have hcustoms : (prev.adopt (prev.adopt d)).customs = (prev.adopt d).customs := by
    have htwice : (prev.adopt (prev.adopt d)).customs =
        (prev.adopt d).customSlots.map fun p => Entry.adopt (prev.get? p.1) p.2 := rfl
    rw [htwice, customSlots_adopt hp hd, List.map_map]
    simp only [Function.comp_def, adopt_adopt]
    rfl
  simp only [adopt, Outline.mk.injEq] at hstyles hcustoms ⊢
  exact ⟨single _ _, single _ _, single _ _, hstyles, hcustoms⟩

theorem map_block_slots_adopt (hp : prev.Kinded) (hd : d.Kinded) :
    (prev.adopt d).slots.map (fun p => (p.1, p.2.block)) =
      d.slots.map fun p => (p.1, p.2.block) := by
  rw [slots_adopt hp hd, List.map_map]
  refine List.map_congr_left fun p hm => ?_
  simp only [Function.comp_apply, block_adopt hp hd (mem_slots.1 hm)]

theorem changed_adopt (hp : prev.Kinded) (hd : d.Kinded) (s : Slot) :
    changed (prev.get? s) ((prev.adopt d).get? s) = changed (prev.get? s) (d.get? s) := by
  rw [get?_adopt hp]
  cases he : d.get? s with
  | none => rfl
  | some e =>
    have hblock := block_adopt hp hd he
    cases hs : prev.get? s with
    | none => rfl
    | some p =>
      rw [hs] at hblock
      simp only [Option.map_some, changed, hblock]

/-- What can be made of the blocks that the parses found: they are filed, laid over each other,
given the synthesized script where they have none, and adopted from each other. -/
inductive Built (found : Nat → List Block) : Outline → Prop where
  | parsed (parse : Nat) : Built found (ofBlocks parse (found parse)).1
  | carried {prev d : Outline} (hp : Built found prev) (hd : Built found d) :
      Built found (prev.carryOver d)
  | scripted {d : Outline} (hd : Built found d) (hn : d.hasScript = false) :
      Built found { d with script := some Composite.fallback }
  | adopted {prev d : Outline} (hp : Built found prev) (hd : Built found d) :
      Built found (prev.adopt d)

variable {found : Nat → List Block}

theorem Built.kinded (h : Built found d) : d.Kinded := by
  induction h with
  | parsed parse => exact kinded_ofBlocks parse _
  | carried _ _ ihp ihd => exact ihp.carryOver ihd
  | scripted _ _ ih => exact { ih with script := by simp [Composite.fallback] }
  | adopted _ _ ihp ihd => exact ihp.adopt ihd

theorem Built.origin (h : Built found d) {e : Entry} (he : e ∈ d.entries) :
    e = Composite.fallback ∨
      ∃ parse i, e.stamp = .parsed parse i ∧ (found parse)[i]? = some e.block := by
  induction h with
  | parsed parse =>
    obtain ⟨i, hi⟩ := mem_entries_ofBlocks he
    exact .inr ⟨parse, i, hi⟩
  | carried _ _ ihp ihd =>
    rcases mem_entries_carryOver he with he | he
    · exact ihd he
    · exact ihp he
  | scripted _ _ ih =>
    simp only [entries, List.mem_append, Option.mem_toList, Option.some.injEq] at he ih
    rcases he with (((he | he) | he) | he) | he
    · exact ih (by simp [he])
    · exact .inl he.symm
    · exact ih (by simp [he])
    · exact ih (by simp [he])
    · exact ih (by simp [he])
  | adopted hp _ ihp ihd =>
    rcases mem_entries_adopt hp.kinded he with he | he
    · exact ihd he
    · exact ihp he

/-- One stamp, one object. -/
theorem Built.eq_of_stamp {a b : Outline} (ha : Built found a) (hb : Built found b) {e f : Entry}
    (he : e ∈ a.entries) (hf : f ∈ b.entries) (h : e.stamp = f.stamp) : e = f := by
  have hfallback : ∀ {parse i}, Composite.fallback.stamp ≠ .parsed parse i := by
    intro parse i
    simp [Composite.fallback]
  rcases ha.origin he with rfl | ⟨parse, i, hs, hblock⟩
  · rcases hb.origin hf with rfl | ⟨parse, i, hs, -⟩
    · rfl
    · exact absurd (h.trans hs) hfallback
  · rcases hb.origin hf with rfl | ⟨parse', j, hs', hblock'⟩
    · exact absurd (h.symm.trans hs) hfallback
    · obtain ⟨rfl, rfl⟩ := Stamp.parsed.inj (hs.symm.trans (h.trans hs'))
      obtain ⟨s, x⟩ := e
      obtain ⟨t, y⟩ := f
      simp_all

/-- Adopting from one outline into another leaves the blocks in all slots, the order of the slots
and what counts as a change as they are; the two share the object of a slot exactly where both
have one and it did not change; and doing it again does nothing. -/
theorem adopt_shares_unchanged (hp : Built found prev) (hd : Built found d) :
    let after := prev.adopt d
    (after.sameBlocks d = true ∧
      after.slots.map (fun p => (p.1, p.2.block)) = d.slots.map fun p => (p.1, p.2.block)) ∧
    (∀ s, changed (prev.get? s) (after.get? s) = changed (prev.get? s) (d.get? s)) ∧
    (∀ s, (∃ p e, prev.get? s = some p ∧ after.get? s = some e ∧ e.stamp = p.stamp) ↔
      (prev.get? s).isSome = true ∧ (d.get? s).isSome = true ∧
        changed (prev.get? s) (d.get? s) = false) ∧
    prev.adopt after = after := by
  have hpk := hp.kinded
  have hdk := hd.kinded
  intro after
  refine ⟨⟨sameBlocks_adopt hpk hdk, map_block_slots_adopt hpk hdk⟩, changed_adopt hpk hdk,
    fun s => ?_, adopt_idem hpk hdk⟩
  constructor
  · rintro ⟨p, e, hs, he, hstamp⟩
    have hsame : e = p := (hp.adopted hd).eq_of_stamp hp (mem_entries_of_get? he)
      (mem_entries_of_get? hs) hstamp
    have hfilled : (d.get? s).isSome = true := by
      have h := congrArg Option.isSome (get?_adopt hpk d s)
      simpa [after, he] using h.symm
    rw [← changed_adopt hpk hdk, hs]
    exact ⟨rfl, hfilled, by simp [after, he, hsame, changed]⟩
  · rintro ⟨hs, he, hc⟩
    obtain ⟨p, hs⟩ := Option.isSome_iff_exists.1 hs
    obtain ⟨e, he⟩ := Option.isSome_iff_exists.1 he
    have hsame : p.block.sameAs e.block = true := by simpa [changed, hs, he] using hc
    refine ⟨p, p, hs, ?_, rfl⟩
    simp [after, get?_adopt hpk, hs, he, Entry.adopt, hsame]

theorem adopt_shares_unchanged_custom :
    let first : Block := ⟨.custom "i18n", none, .ofList [], ⟨30, 31⟩, "a"⟩
    let docs : Block := ⟨.custom "docs", none, .ofList [], ⟨40, 41⟩, "d"⟩
    let second : Block := ⟨.custom "i18n", none, .ofList [], ⟨50, 51⟩, "b"⟩
    let edited : Block := { docs with content := "e" }
    let found : Nat → List Block := fun n =>
      if n = 0 then [first, docs, second] else [edited, first]
    let scripted : Outline → Outline := fun d => { d with script := some Composite.fallback }
    let prev := scripted (ofBlocks 0 (found 0)).1
    let d := scripted (prev.carryOver (ofBlocks 1 (found 1)).1)
    Built found prev ∧ Built found d ∧
      (∀ s ∈ [Slot.script, .custom "i18n" 0, .custom "i18n" 1],
        ∃ p e, prev.get? s = some p ∧ (prev.adopt d).get? s = some e ∧ e.stamp = p.stamp) ∧
      (¬ ∃ p e, prev.get? (.custom "docs" 0) = some p ∧
        (prev.adopt d).get? (.custom "docs" 0) = some e ∧ e.stamp = p.stamp) ∧
      prev.adopt (prev.adopt d) = prev.adopt d := by
  intro first docs second edited found scripted prev d
  have hprev : Built found prev := .scripted (.parsed 0) (by decide)
  have hd : Built found d := .scripted (.carried hprev (.parsed 1)) (by decide)
  obtain ⟨-, -, hshared, hagain⟩ := adopt_shares_unchanged hprev hd
  refine ⟨hprev, hd, fun s hs => (hshared s).2 ?_, fun h => ?_, hagain⟩
  · revert s
    decide
  · exact absurd ((hshared _).1 h) (by decide)

end BlockLens.Outline
