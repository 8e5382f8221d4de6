import BlockLens.Proofs.Outline.Slots

set_option autoImplicit false

namespace BlockLens.Outline

def takes (d : Outline) (p : Slot × Entry) : Bool := (d.get? p.1).isNone && handsOn p.1 p.2.block

theorem handsOn_eq_false {s : Slot} {b : Block} :
    handsOn s b = false ↔
      (s = .template ∨ s = .script ∨ s = .scriptSetup) ∧ b.isFallback = true := by
  cases s <;> simp [handsOn, Slot.kind, Kind.repeats]

variable {prev d : Outline}

theorem inherited_eq_filter {s : Slot} (hs : s.kind.repeats = false) (x : Option Entry) :
    ((inherited (d.get? s) x).map (s, ·)).toList = (x.map (s, ·)).toList.filter d.takes := by
  cases x with
  | none => cases d.get? s <;> rfl
  | some p =>
    cases hown : d.get? s with
    | some e => simp [inherited, takes, hown]
    | none => cases hp : p.block.isFallback <;> simp [inherited, takes, hown, handsOn, hs, hp]

theorem drop_styles_eq_filter (d : Outline) (l : List Entry) :
    (l.mapIdx fun i e => (Slot.style i, e)).drop d.styles.length =
      (l.mapIdx fun i e => (Slot.style i, e)).filter d.takes := by
  have htakes : ∀ i e, d.takes (.style i, e) = decide (d.styles.length ≤ i) := by
    intro i e
    rw [Bool.eq_iff_iff]
    simp [takes, get?, handsOn, Slot.kind, Kind.repeats]
  have hbefore :
      ((l.mapIdx fun i e => (Slot.style i, e)).take d.styles.length).filter d.takes = [] := by
    refine List.filter_eq_nil_iff.2 fun p hp => ?_
    obtain ⟨i, hi, rfl⟩ := List.getElem_of_mem hp
    simp only [List.length_take] at hi
    simp only [List.getElem_take, List.getElem_mapIdx, htakes, decide_eq_true_eq]
    omega
  have hbehind : ∀ p ∈ (l.mapIdx fun i e => (Slot.style i, e)).drop d.styles.length,
      d.takes p = true := by
    intro p hp
    obtain ⟨i, hi, rfl⟩ := List.getElem_of_mem hp
    simp only [List.getElem_drop, List.getElem_mapIdx, htakes, decide_eq_true_eq]
    omega
  conv_rhs => rw [← List.take_append_drop d.styles.length (l.mapIdx fun i e => (Slot.style i, e))]
  rw [List.filter_append, hbefore, List.nil_append, List.filter_eq_self.2 hbehind]

theorem filter_customSlots_eq_filter (prev d : Outline) :
    (prev.customSlots.filter fun p => !(d.customSlots.map (·.1)).contains p.1) =
      prev.customSlots.filter d.takes := by
  refine List.filter_congr fun p hp => ?_
  obtain ⟨name, i, hs, -⟩ := mem_customSlots.1 hp
  have htaken : (d.get? (.custom name i)).isNone =
      !decide (Slot.custom name i ∈ d.customSlots.map (·.1)) := by
    have hget : d.get? (.custom name i) = (tagged name d.customs)[i]? := rfl
    rw [hget, Bool.eq_iff_iff]
    simp [mem_map_fst_customSlots]
  rw [hs, List.contains_eq_mem, ← htaken]
  simp [takes, hs, handsOn, Slot.kind, Kind.repeats]

/-- What is missing are the blocks of the old outline that the new one takes. -/
theorem perm_missing (prev d : Outline) : (missing prev d).Perm (prev.slots.filter d.takes) := by
  have htemplate := inherited_eq_filter (d := d) (s := .template) rfl prev.template
  have hscript := inherited_eq_filter (d := d) (s := .script) rfl prev.script
  have hsetup := inherited_eq_filter (d := d) (s := .scriptSetup) rfl prev.scriptSetup
  simp only [get?] at htemplate hscript hsetup
  refine List.perm_iff_count.2 fun a => ?_
  simp only [missing, slots, List.filter_append, htemplate, hscript, hsetup, drop_styles_eq_filter,
    filter_customSlots_eq_filter, List.count_append]
  omega

theorem mem_missing {s : Slot} {e : Entry} :
    (s, e) ∈ missing prev d ↔ prev.get? s = some e ∧ d.takes (s, e) = true := by
  rw [(perm_missing prev d).mem_iff, List.mem_filter, mem_slots]

theorem nodup_missing (prev d : Outline) : ((missing prev d).map (·.1)).Nodup := by
  refine ((perm_missing prev d).map (·.1)).nodup_iff.2 ?_
  exact prev.nodup_slots.sublist (List.filter_sublist.map _)

theorem mem_map_fst_missing {s : Slot} :
    s ∈ (missing prev d).map (·.1) ↔ d.get? s = none ∧ (prev.carryOver d).get? s ≠ none := by
  have hfilled : s ∈ (missing prev d).map (·.1) ↔ ∃ e, (s, e) ∈ missing prev d := by simp
  rw [hfilled, get?_carryOver]
  simp only [mem_missing, takes, Bool.and_eq_true, Option.isNone_iff_eq_none]
  constructor
  · rintro ⟨e, he, hd, hb⟩
    simp [he, hd, hb]
  · rintro ⟨hd, hne⟩
    rw [hd, Option.none_or, Option.ne_none_iff_exists'] at hne
    obtain ⟨e, he⟩ := hne
    obtain ⟨he, hb⟩ := Option.filter_eq_some_iff.1 he
    exact ⟨e, he, hd, hb⟩

/-- Of any two outlines: a slot keeps what the new one has in it, and else has the very object that
the old one had, unless that is a template or a script that only stands in; and the list of the
slots filled names each of them once and no other. -/
theorem carryOver_overlays (prev d : Outline) :
    let after := prev.carryOver d
    let filled := (missing prev d).map (·.1)
    (∀ s, after.get? s =
      match d.get? s, prev.get? s with
      | some e, _ => some e
      | none, some p =>
        if (s = .template ∨ s = .script ∨ s = .scriptSetup) ∧ p.block.isFallback = true then none
        else some p
      | none, none => none) ∧
    ∀ s, filled.count s = if d.get? s = none ∧ after.get? s ≠ none then 1 else 0 := by
  intro after filled
  refine ⟨fun s => ?_, fun s => ?_⟩
  · rw [get?_carryOver]
    cases d.get? s with
    | some e => rfl
    | none =>
      cases prev.get? s with
      | none => rfl
      | some p =>
        simp only [Option.none_or, Option.filter, ← handsOn_eq_false]
        by_cases h : handsOn s p.block = true <;> simp [h]
  · rw [(nodup_missing prev d).count]
    exact if_congr mem_map_fst_missing rfl rfl

end BlockLens.Outline
