import BlockLens.Document.Composite
import BlockLens.Proofs.Identifier
import BlockLens.Proofs.Outline

set_option autoImplicit false

namespace BlockLens.Composite

open Outline

variable (o : Options)

/-- What a reading of the text does to what is known of it. -/
theorem refresh_cases (text : String) (c : Composite) :
    (c.dirty = false ∧ c.refresh o text = c) ∨
    (c.dirty = true ∧ c.parsed = some text ∧ c.refresh o text = { c with dirty := false }) ∨
    (c.dirty = true ∧ c.parsed ≠ some text ∧ c.refresh o text = c.reparse o text) := by
  cases hd : c.dirty with
  | false => exact .inl ⟨rfl, by simp [refresh, hd]⟩
  | true =>
    by_cases hp : c.parsed = some text
    · exact .inr (.inl ⟨rfl, hp, by simp [refresh, hd, hp]⟩)
    · exact .inr (.inr ⟨rfl, hp, by simp [refresh, hd, hp]⟩)

theorem idIn_congr {file : String} {a b : Outline} {s : Slot}
    (h : (a.get? s).map (·.block) = (b.get? s).map (·.block)) :
    idIn o file a s = idIn o file b s := by
  cases ha : a.get? s <;> cases hb : b.get? s <;> simp_all [idIn]

theorem importable_eq {file : String} {d : Outline} (hd : d.Kinded) (s : Slot) :
    importable o file d s =
      if (o.registry.get? s.kind).isSome then (idIn o file d s).map (·.text) else none := by
  cases h : d.get? s with
  | none => simp [importable, idIn, h]
  | some e => simp [importable, h, hd.kind_eq h]

theorem importable_congr {file : String} {a b : Outline} {s : Slot} (ha : a.Kinded) (hb : b.Kinded)
    (h : idIn o file a s = idIn o file b s) : importable o file a s = importable o file b s := by
  rw [importable_eq o ha, importable_eq o hb, h]

theorem forSlot_eq_ok {file lang : String} {s : Slot} {i : Identifier}
    (h : Identifier.forSlot file s lang = .ok i) :
    i = ⟨file, s.kind, s.index?, s.isSetup, lang⟩ ∧ i.validate = .ok () := by
  simp only [Identifier.forSlot] at h
  cases hv : (⟨file, s.kind, s.index?, s.isSetup, lang⟩ : Identifier).validate with
  | error e => simp [hv, Except.map] at h
  | ok u =>
    simp only [hv, Except.map, Except.ok.injEq] at h
    subst h
    exact ⟨rfl, hv⟩

theorem slot?_of_idIn {file : String} {d : Outline} {s : Slot} {i : Identifier}
    (h : idIn o file d s = some i) :
    i.slot? = some s ∧ i.file = file ∧ i.kind = s.kind ∧ i.validate = .ok () := by
  simp only [idIn, Option.bind_eq_some_iff] at h
  obtain ⟨e, -, he⟩ := h
  cases hf : Identifier.forSlot file s (languageOf o e.block) with
  | error x => simp [hf, Except.toOption] at he
  | ok j =>
    simp only [hf, Except.toOption, Option.some.injEq] at he
    subst he
    obtain ⟨rfl, hv⟩ := forSlot_eq_ok hf
    exact ⟨Slot.ofParts?_eq_some.2 ⟨rfl, rfl, rfl⟩, rfl, rfl, hv⟩

theorem isSome_get?_of_idIn {file : String} {d : Outline} {s : Slot} {i : Identifier}
    (h : idIn o file d s = some i) : ∃ e, d.get? s = some e := by
  simp only [idIn, Option.bind_eq_some_iff] at h
  obtain ⟨e, he, -⟩ := h
  exact ⟨e, he⟩

/-- Two slots whose kinds come from tags share no name. -/
theorem slot_eq_of_text_eq {file : String} {a b : Outline} {s t : Slot} {i j : Identifier}
    (hi : idIn o file a s = some i) (hj : idIn o file b t = some j) (hs : s.kind.IsTag)
    (ht : t.kind.IsTag) (h : i.text = j.text) : s = t ∧ i = j := by
  obtain ⟨si, -, ki, vi⟩ := slot?_of_idIn o hi
  obtain ⟨sj, -, kj, vj⟩ := slot?_of_idIn o hj
  have hij := Identifier.text_injective vi vj (ki ▸ hs) (kj ▸ ht) h
  subst hij
  rw [si, Option.some.injEq] at sj
  exact ⟨sj, rfl⟩

theorem kinded_fallback {d : Outline} (h : d.Kinded) :
    ({ d with script := some fallback } : Outline).Kinded :=
  { h with script := by simp [fallback] }

def scripted (d : Outline) : Outline :=
  if d.hasScript then d else { d with script := some fallback }

theorem get?_scripted (d : Outline) (s : Slot) :
    (scripted d).get? s = if s = .script ∧ d.hasScript = false then some fallback else d.get? s := by
  unfold scripted
  cases hd : d.hasScript with
  | true => simp
  | false => cases s <;> simp [get?]

theorem kinded_scripted {d : Outline} (h : d.Kinded) : (scripted d).Kinded := by
  unfold scripted
  split
  · exact h
  · exact kinded_fallback h

theorem mem_entries_scripted {d : Outline} {e : Entry} (h : e ∈ (scripted d).entries) :
    e ∈ d.entries ∨ e = fallback := by
  unfold scripted at h
  split at h
  · exact .inl h
  · simp only [entries, List.mem_append, Option.mem_toList, Option.some.injEq] at h ⊢
    grind

theorem sameBlocks_scripted {a b : Outline} (h : a.sameBlocks b = true) :
    (scripted a).sameBlocks (scripted b) = true := by
  obtain ⟨h₁, h₂, h₃, h₄, h₅⟩ := sameBlocks_iff.1 h
  have hs : a.hasScript = b.hasScript := by
    have e₂ := congrArg Option.isSome h₂
    have e₃ := congrArg Option.isSome h₃
    simp only [Option.isSome_map] at e₂ e₃
    simp [hasScript, e₂, e₃]
  unfold scripted
  rw [hs]
  split
  · exact h
  · exact sameBlocks_iff.2 ⟨h₁, rfl, h₃, h₄, h₅⟩

theorem merge_none (fresh : Outline) (faulty : Bool) : merge none fresh faulty = scripted fresh := rfl

theorem merge_some (p fresh : Outline) (faulty : Bool) :
    merge (some p) fresh faulty =
      p.adopt (scripted (if faulty then p.carryOver fresh else fresh)) := rfl

theorem kinded_merge {prev : Option Outline} {fresh : Outline} (hp : ∀ p ∈ prev, p.Kinded)
    (hf : fresh.Kinded) (faulty : Bool) : (merge prev fresh faulty).Kinded := by
  cases prev with
  | none => exact kinded_scripted hf
  | some p =>
    have hp := hp p rfl
    rw [merge_some]
    refine hp.adopt (kinded_scripted ?_)
    split
    · exact hp.carryOver hf
    · exact hf

theorem mem_entries_merge {prev : Option Outline} {fresh : Outline} {faulty : Bool}
    (hp : ∀ p ∈ prev, p.Kinded) {e : Entry} (h : e ∈ (merge prev fresh faulty).entries) :
    e ∈ fresh.entries ∨ e = fallback ∨ ∃ p ∈ prev, e ∈ p.entries := by
  cases prev with
  | none =>
    rcases mem_entries_scripted h with h | h
    · exact .inl h
    · exact .inr (.inl h)
  | some p =>
    rw [merge_some] at h
    have old : e ∈ p.entries → e ∈ fresh.entries ∨ e = fallback ∨ ∃ q ∈ some p, e ∈ q.entries :=
      fun hm => .inr (.inr ⟨p, rfl, hm⟩)
    rcases mem_entries_adopt (hp p rfl) h with h | h
    · rcases mem_entries_scripted h with h | h
      · split at h
        · rcases mem_entries_carryOver h with h | h
          · exact .inl h
          · exact old h
        · exact .inl h
      · exact .inr (.inl h)
    · exact old h

theorem isSome_get?_merge {prev : Option Outline} {fresh : Outline} {faulty : Bool}
    (hp : ∀ p ∈ prev, p.Kinded) {s : Slot} {e : Entry} (h : (merge prev fresh faulty).get? s = some e) :
    (∃ x, fresh.get? s = some x) ∨ s = .script ∨ ∃ p ∈ prev, ∃ x, p.get? s = some x := by
  have hscripted : ∀ {d : Outline} {x : Entry}, (scripted d).get? s = some x →
      s = .script ∨ d.get? s = some x := by
    intro d x hx
    rw [get?_scripted] at hx
    split at hx
    · next hs => exact .inl hs.1
    · exact .inr hx
  cases prev with
  | none =>
    rcases hscripted h with hs | hs
    · exact .inr (.inl hs)
    · exact .inl ⟨e, hs⟩
  | some p =>
    rw [merge_some, get?_adopt (hp p rfl), Option.map_eq_some_iff] at h
    obtain ⟨a, ha, -⟩ := h
    rcases hscripted ha with hs | hs
    · exact .inr (.inl hs)
    · split at hs
      · rw [get?_carryOver, Option.or_eq_some_iff] at hs
        rcases hs with hs | ⟨-, hs⟩
        · exact .inl ⟨a, hs⟩
        · exact .inr (.inr ⟨p, rfl, a, (Option.filter_eq_some_iff.1 hs).1⟩)
      · exact .inl ⟨a, hs⟩

/-- Without a fault nothing is left of the old outline but objects. -/
theorem sameBlocks_merge {prev : Option Outline} {fresh : Outline} (hp : ∀ p ∈ prev, p.Kinded)
    (hf : fresh.Kinded) : (merge prev fresh false).sameBlocks (scripted fresh) = true := by
  cases prev with
  | none => simp [merge_none, sameBlocks]
  | some p => exact sameBlocks_adopt (hp p rfl) (kinded_scripted hf)

theorem map_block_of_not_changed {a b : Outline} (ha : a.Kinded) (hb : b.Kinded) {s : Slot}
    (h : changed (a.get? s) (b.get? s) = false) :
    (a.get? s).map (·.block) = (b.get? s).map (·.block) := by
  cases hx : a.get? s with
  | none => cases hy : b.get? s <;> simp_all [changed]
  | some x =>
    cases hy : b.get? s with
    | none => simp [changed, hx, hy] at h
    | some y =>
      simp only [changed, hx, hy, Bool.not_eq_false'] at h
      simp [Block.eq_of_sameAs h ((ha.kind_eq hx).trans (hb.kind_eq hy).symm)]

theorem mem_staleSlots {file : String} {prev next : Outline} {s : Slot}
    (hs : (prev.get? s).isSome = true) (h : changed (prev.get? s) (next.get? s) = true) :
    s ∈ staleSlots o file prev next := by
  simp only [staleSlots, List.mem_filter, List.mem_append, hs, and_true]
  cases s with
  | template => simp [h]
  | script => simp [h]
  | scriptSetup => simp [h]
  | style i =>
    refine .inr ⟨.inl ?_, h⟩
    obtain ⟨e, he⟩ := Option.isSome_iff_exists.1 hs
    obtain ⟨hi, -⟩ := List.getElem?_eq_some_iff.1 he
    simpa using hi
  | custom name i =>
    refine .inr ⟨.inr ?_, h⟩
    obtain ⟨e, he⟩ := Option.isSome_iff_exists.1 hs
    rw [List.mem_mergeSort]
    exact List.mem_map.2 ⟨_, mem_customSlots.2 ⟨name, i, rfl, he⟩, rfl⟩

theorem map_block_of_not_stale {file : String} {prev next : Outline} (hp : prev.Kinded)
    (hn : next.Kinded) {s : Slot} (hs : (prev.get? s).isSome = true)
    (h : s ∉ staleSlots o file prev next) :
    (prev.get? s).map (·.block) = (next.get? s).map (·.block) := by
  refine map_block_of_not_changed hp hn ?_
  cases hc : changed (prev.get? s) (next.get? s) with
  | false => rfl
  | true => exact absurd (mem_staleSlots o hs hc) h

/-- A template that did not go stale still finds the component where it did. The setup script is
the same; of the script only the name has to be. -/
theorem scriptImport_of_not_stale {file : String} {prev next : Outline} (hp : prev.Kinded)
    (hn : next.Kinded) (hs : (prev.get? .template).isSome = true)
    (h : Slot.template ∉ staleSlots o file prev next) :
    scriptImport o file prev = scriptImport o file next := by
  have hc : (changed (prev.get? .template) (next.get? .template) ||
      changed (prev.get? .scriptSetup) (next.get? .scriptSetup) ||
      (changed (prev.get? .script) (next.get? .script) &&
        idIn o file prev .script != idIn o file next .script)) = false := by
    cases hc : (changed (prev.get? .template) (next.get? .template) ||
        changed (prev.get? .scriptSetup) (next.get? .scriptSetup) ||
        (changed (prev.get? .script) (next.get? .script) &&
          idIn o file prev .script != idIn o file next .script)) with
    | false => rfl
    | true =>
      refine absurd ?_ h
      simp only [staleSlots, hc, List.mem_filter, List.mem_append, hs, and_true]
      simp
  simp only [Bool.or_eq_false_iff] at hc
  obtain ⟨⟨-, hsetup⟩, hscript⟩ := hc
  have h₁ : importable o file prev .scriptSetup = importable o file next .scriptSetup :=
    importable_congr o hp hn (idIn_congr o (map_block_of_not_changed hp hn hsetup))
  have h₂ : importable o file prev .script = importable o file next .script := by
    refine importable_congr o hp hn ?_
    cases hch : changed (prev.get? .script) (next.get? .script) with
    | false => exact idIn_congr o (map_block_of_not_changed hp hn hch)
    | true => simpa [hch] using hscript
  simp only [scriptImport, h₁, h₂]

theorem mem_evict {ks : List String} {live : List BlockDocument} {d : BlockDocument} :
    d ∈ (evict ks live).1 ↔ d ∈ live ∧ d.key ∉ ks := by
  induction ks generalizing live with
  | nil => simp [evict]
  | cons k ks ih =>
    simp only [evict]
    split
    · simp only [ih, List.mem_filter, decide_eq_true_eq, List.mem_cons, not_or, and_assoc]
    · next hk =>
      simp only [List.any_eq_true, decide_eq_true_eq, not_exists, not_and] at hk
      simp only [ih, List.mem_cons, not_or]
      exact ⟨fun h => ⟨h.1, fun e => hk d h.1 e, h.2⟩, fun h => ⟨h.1, h.2.2⟩⟩

theorem mem_evicted {ks : List String} {live : List BlockDocument} {name : String} :
    name ∈ (evict ks live).2 ↔ name ∈ ks ∧ ∃ d ∈ live, d.key = name := by
  induction ks generalizing live with
  | nil => simp [evict]
  | cons k ks ih =>
    simp only [evict]
    by_cases hname : name = k
    · subst hname
      split
      · next hk => simpa using hk
      · next hk =>
        have hnone : ¬ ∃ d ∈ live, d.key = name := by simpa using hk
        simp only [ih, hnone, and_false]
    · split
      · simp only [List.mem_cons, hname, false_or, ih, List.mem_filter, decide_eq_true_eq]
        refine and_congr_right fun _ => exists_congr fun d => ?_
        exact ⟨fun h => ⟨h.1.1, h.2⟩, fun h => ⟨⟨h.1, fun e => hname (h.2.symm.trans e)⟩, h.2⟩⟩
      · simp only [List.mem_cons, hname, false_or, ih]

theorem sublist_evict (ks : List String) (live : List BlockDocument) :
    (evict ks live).1.Sublist live := by
  induction ks generalizing live with
  | nil => exact List.Sublist.refl _
  | cons k ks ih =>
    simp only [evict]
    split
    · exact (ih _).trans List.filter_sublist
    · exact ih live

end BlockLens.Composite
