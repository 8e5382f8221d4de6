import Mathlib.Data.List.Nodup
import BlockLens.Proofs.Outline

set_option autoImplicit false

namespace BlockLens

namespace Outline

theorem perm_entries_addAll (d : Outline) (l : List Entry) :
    ∃ l', l'.Sublist l ∧ (d.addAll l).1.entries.Perm (l' ++ d.entries) := by
  induction l generalizing d with
  | nil => exact ⟨[], .slnil, .refl _⟩
  | cons e l ih =>
    simp only [addAll]
    split
    · next d' hd =>
      obtain ⟨l', hsub, hperm⟩ := ih d'
      refine ⟨e :: l', hsub.cons_cons e, hperm.trans ?_⟩
      exact ((perm_entries_add hd).append_left l').trans List.perm_middle
    · obtain ⟨l', hsub, hperm⟩ := ih d
      exact ⟨l', hsub.cons e, hperm⟩

theorem perm_slots (d : Outline) : (d.slots.map (·.2)).Perm d.entries := by
  refine List.perm_iff_count.2 fun a => ?_
  have fixed : ∀ (x : Option Entry) (s : Slot), ((x.map (s, ·)).toList.map (·.2)) = x.toList := by
    intro x s
    cases x <;> rfl
  have hcustom : d.customSlots.map (·.2) = d.customs := map_snd_number _ _
  have hstyles : (d.styles.mapIdx fun i e => (Slot.style i, e)).map (·.2) = d.styles := by
    apply List.ext_getElem <;> simp
  simp only [slots, entries, List.map_append, fixed, hcustom, hstyles, List.count_append]
  omega

theorem slot_eq_of_get? {d : Outline} (hd : d.entries.Nodup) {s t : Slot} {e : Entry}
    (hs : d.get? s = some e) (ht : d.get? t = some e) : s = t := by
  have hslots : (d.slots.map (·.2)).Nodup := d.perm_slots.nodup_iff.2 hd
  exact congrArg Prod.fst (List.inj_on_of_nodup_map hslots (mem_slots.2 hs) (mem_slots.2 ht) rfl)

theorem slot_eq_of_block_eq {d : Outline} (hd : (d.entries.map (·.block)).Nodup) {s t : Slot}
    {e f : Entry} (he : d.get? s = some e) (hf : d.get? t = some f) (h : e.block = f.block) :
    s = t := by
  have hef : e = f :=
    List.inj_on_of_nodup_map hd (mem_entries_of_get? he) (mem_entries_of_get? hf) h
  exact slot_eq_of_get? hd.of_map he (hef ▸ hf)

theorem nodup_number (seen : List String) (l : List Entry) :
    ((number seen l).map (·.1)).Nodup := by
  induction l generalizing seen with
  | nil => simp [number]
  | cons e l ih =>
    simp only [number, List.map_cons, List.nodup_cons]
    refine ⟨fun hmem => ?_, ih _⟩
    obtain ⟨⟨s, e'⟩, hp, hs⟩ := List.mem_map.1 hmem
    obtain ⟨name, i, rfl, -⟩ := mem_number.1 hp
    simp only [Slot.custom.injEq] at hs
    obtain ⟨rfl, hi⟩ := hs
    rw [List.count_cons_self] at hi
    omega

def counted (d : Outline) : List Slot :=
  (List.range d.styles.length).map Slot.style ++ d.customSlots.map (·.1)

theorem isSome_index?_of_mem_counted {d : Outline} {s : Slot} (h : s ∈ d.counted) :
    s.index?.isSome = true := by
  rcases List.mem_append.1 h with h | h
  · obtain ⟨i, -, rfl⟩ := List.mem_map.1 h
    rfl
  · obtain ⟨⟨s, e⟩, hp, rfl⟩ := List.mem_map.1 h
    obtain ⟨name, i, rfl, -⟩ := mem_customSlots.1 hp
    rfl

theorem nodup_counted (d : Outline) : d.counted.Nodup := by
  have hstyles : ((List.range d.styles.length).map Slot.style).Nodup :=
    List.nodup_range.map fun _ _ h => Slot.style.inj h
  refine List.nodup_append.2 ⟨hstyles, nodup_number [] d.customs, fun s hs t ht => ?_⟩
  obtain ⟨i, -, rfl⟩ := List.mem_map.1 hs
  obtain ⟨⟨t, e⟩, hp, rfl⟩ := List.mem_map.1 ht
  obtain ⟨name, j, rfl, -⟩ := mem_customSlots.1 hp
  simp

theorem nodup_slots (d : Outline) : (d.slots.map (·.1)).Nodup := by
  have hone : ∀ (x : Option Entry) (s : Slot), (x.map (s, ·)).toList.map (·.1) = [] ∨
      (x.map (s, ·)).toList.map (·.1) = [s] := by
    intro x s
    cases x
    · exact .inl rfl
    · exact .inr rfl
  have hstyles : ((d.styles.mapIdx fun i e => (Slot.style i, e)).map (·.1)) =
      (List.range d.styles.length).map Slot.style := by
    apply List.ext_getElem <;> simp
  have hnot : ∀ s, s.index? = none → s ∉ d.counted := by
    intro s hs hmem
    have h := isSome_index?_of_mem_counted hmem
    simp [hs] at h
  have hsetup := hnot .scriptSetup rfl
  have hscript := hnot .script rfl
  have htemplate := hnot .template rfl
  have hcounted := d.nodup_counted
  simp only [slots, List.map_append, List.append_assoc, hstyles]
  rw [← counted]
  rcases hone d.scriptSetup .scriptSetup with h₁ | h₁ <;>
    rcases hone d.script .script with h₂ | h₂ <;>
    rcases hone d.template .template with h₃ | h₃ <;>
    simp [h₁, h₂, h₃, hsetup, hscript, htemplate, hcounted]

theorem perm_documentOrder (d : Outline) : d.documentOrder.Perm d.slots := List.mergeSort_perm _ _

theorem mem_documentOrder {d : Outline} {s : Slot} {e : Entry} :
    (s, e) ∈ d.documentOrder ↔ d.get? s = some e := by
  rw [d.perm_documentOrder.mem_iff, mem_slots]

theorem mem_map_snd_slots {d : Outline} {e : Entry} :
    e ∈ d.slots.map (·.2) ↔ ∃ s, d.get? s = some e := by
  constructor
  · intro h
    obtain ⟨⟨s, e'⟩, hm, rfl⟩ := List.mem_map.1 h
    exact ⟨s, mem_slots.1 hm⟩
  · rintro ⟨s, hs⟩
    exact List.mem_map.2 ⟨(s, e), mem_slots.2 hs, rfl⟩

/-- A slot holds the one of its peers that its index says, those that were there before first. -/
theorem get?_addAll_eq (d : Outline) (l : List Entry) (s : Slot) :
    (d.addAll l).1.get? s =
      (d.peers s ++ l.filter fun e => s.suits e.block)[s.index?.getD 0]? := by
  induction l generalizing d with
  | nil => simp [addAll, get?_eq_peers]
  | cons e l ih =>
    cases hd : d.add e with
    | ok d' =>
      simp only [addAll, hd, ih, peers_add hd s, List.append_assoc, List.filter_cons]
      split <;> simp
    | error x =>
      simp only [addAll, hd, ih, List.filter_cons]
      split
      · next hs =>
        obtain ⟨hindex, hne⟩ := (taken_of_add hd).2 s hs
        obtain ⟨f, r, hf⟩ := List.exists_cons_of_ne_nil hne
        simp [hindex, hf]
      · rfl

def stamped (parse : Nat) (blocks : List Block) : List Entry :=
  blocks.mapIdx fun i b => ⟨.parsed parse i, b⟩

@[simp] theorem map_block_stamped (parse : Nat) (blocks : List Block) :
    (stamped parse blocks).map (·.block) = blocks := by
  apply List.ext_getElem <;> simp [stamped]

theorem nodup_stamped (parse : Nat) (blocks : List Block) : (stamped parse blocks).Nodup := by
  have hstamps : (stamped parse blocks).map (·.stamp) =
      (List.range blocks.length).map (Stamp.parsed parse) := by
    apply List.ext_getElem <;> simp [stamped]
  refine List.Nodup.of_map (·.stamp) ?_
  rw [hstamps]
  exact List.nodup_range.map fun _ _ h => (Stamp.parsed.inj h).2

theorem get?_ofBlocks (parse : Nat) (blocks : List Block) (s : Slot) :
    (ofBlocks parse blocks).1.get? s =
      ((stamped parse blocks).filter fun e => s.suits e.block)[s.index?.getD 0]? := by
  have hempty : ({} : Outline).peers s = [] := by cases s <;> rfl
  have h := get?_addAll_eq {} (stamped parse blocks) s
  rwa [hempty, List.nil_append] at h

theorem map_block_get?_ofBlocks (parse : Nat) (blocks : List Block) (s : Slot) :
    ((ofBlocks parse blocks).1.get? s).map (·.block) =
      (blocks.filter s.suits)[s.index?.getD 0]? := by
  rw [get?_ofBlocks, ← List.getElem?_map, ← map_block_stamped parse blocks, List.filter_map,
    map_block_stamped]
  rfl

theorem map_block_get?_insert (parse : Nat) (l r : List Block) {b : Block} {s : Slot}
    (h : s.suits b = false) :
    ((ofBlocks parse (l ++ b :: r)).1.get? s).map (·.block) =
      ((ofBlocks parse (l ++ r)).1.get? s).map (·.block) := by
  simp [map_block_get?_ofBlocks, h]

theorem nodup_entries (parse : Nat) (blocks : List Block) :
    (ofBlocks parse blocks).1.entries.Nodup := by
  obtain ⟨l, hsub, hperm⟩ := perm_entries_addAll {} (stamped parse blocks)
  refine hperm.nodup_iff.2 ?_
  simpa [entries] using (nodup_stamped parse blocks).sublist hsub

theorem nodup_entries_ofBlocks {blocks : List Block} (h : blocks.Nodup) (parse : Nat) :
    ((ofBlocks parse blocks).1.entries.map (·.block)).Nodup := by
  obtain ⟨l, hsub, hperm⟩ := perm_entries_addAll {} (stamped parse blocks)
  have hl : (l.map (·.block)).Nodup := by
    have hs := hsub.map (·.block)
    rw [map_block_stamped] at hs
    exact h.sublist hs
  refine (hperm.map _).nodup_iff.2 ?_
  simpa [entries] using hl

theorem errors_addAll {d : Outline} {l : List Entry} (h : (l ++ d.entries).Nodup) :
    (d.addAll l).2 =
      (l.filter (· ∉ (d.addAll l).1.entries)).map fun e => duplicate e.block := by
  induction l generalizing d with
  | nil => rfl
  | cons e l ih =>
    obtain ⟨he, hl⟩ := List.nodup_cons.1 h
    cases hd : d.add e with
    | ok d' =>
      have hperm := perm_entries_add hd
      obtain ⟨l', -, hall⟩ := perm_entries_addAll d' l
      have hmem : e ∈ (d'.addAll l).1.entries :=
        hall.mem_iff.2 (List.mem_append_right _ (hperm.mem_iff.2 (.head _)))
      have hrest : (l ++ d'.entries).Nodup :=
        ((hperm.append_left l).trans List.perm_middle).nodup_iff.2 h
      simp [addAll, hd, hmem, ih hrest]
    | error x =>
      obtain ⟨rfl, -⟩ := taken_of_add hd
      obtain ⟨l', hsub, hall⟩ := perm_entries_addAll d l
      have hmem : e ∉ (d.addAll l).1.entries := by
        rw [hall.mem_iff, List.mem_append]
        rintro (hm | hm)
        · exact he (List.mem_append_left _ (hsub.mem hm))
        · exact he (List.mem_append_right _ hm)
      simp [addAll, hd, hmem, ih hl]

theorem start_le_trans (a b c : Slot × Entry)
    (hab : decide (a.2.block.span.start ≤ b.2.block.span.start) = true)
    (hbc : decide (b.2.block.span.start ≤ c.2.block.span.start) = true) :
    decide (a.2.block.span.start ≤ c.2.block.span.start) = true := by
  simp only [decide_eq_true_eq] at *
  omega

theorem start_le_total (a b : Slot × Entry) :
    (decide (a.2.block.span.start ≤ b.2.block.span.start) ||
      decide (b.2.block.span.start ≤ a.2.block.span.start)) = true := by
  simp only [Bool.or_eq_true, decide_eq_true_eq]
  omega

theorem sorted_documentOrder (d : Outline) :
    d.documentOrder.Pairwise fun a b => a.2.block.span.start ≤ b.2.block.span.start := by
  have h := List.pairwise_mergeSort start_le_trans start_le_total d.slots
  simpa [documentOrder] using h

/-- Slots whose blocks start at one place stay in their order. -/
theorem filter_documentOrder (d : Outline) (x : Nat) :
    d.documentOrder.filter (·.2.block.span.start = x) =
      d.slots.filter (·.2.block.span.start = x) := by
  have hlevel : (d.slots.filter (·.2.block.span.start = x)).Pairwise fun a b =>
      decide (a.2.block.span.start ≤ b.2.block.span.start) = true := by
    refine List.pairwise_iff_getElem.2 fun i j hi hj _ => ?_
    have ha := (List.mem_filter.1 (List.getElem_mem hi)).2
    have hb := (List.mem_filter.1 (List.getElem_mem hj)).2
    simp only [decide_eq_true_eq] at ha hb ⊢
    omega
  have hsub : (d.slots.filter (·.2.block.span.start = x)).Sublist d.documentOrder :=
    List.sublist_mergeSort start_le_trans start_le_total hlevel List.filter_sublist
  have hfilter := hsub.filter fun p => decide (p.2.block.span.start = x)
  simp only [List.filter_filter, Bool.and_self] at hfilter
  exact (hfilter.eq_of_length (d.perm_documentOrder.filter _).length_eq.symm).symm

/-- Slots address blocks by kind. Of the blocks of any list, the first template, setup script and
other script and the styles and custom blocks by their number among their like are in the slots of
these names; every other block is reported, in order; the filled slots are listed once each, and in
the order of the text where that is asked for; and a block that comes in anywhere moves no block of
another kind or name, nor a script of the other sort. -/
theorem ofBlocks_by_kind (parse : Nat) (blocks : List Block) :
    let d := (ofBlocks parse blocks).1
    let errors := (ofBlocks parse blocks).2
    let found := stamped parse blocks
    let refused := found.filter (· ∉ d.slots.map (·.2))
    (d.get? .template = found.find? (·.block.kind = .template) ∧
      d.get? .scriptSetup = found.find? (fun e => e.block.kind = .script && e.block.isSetup) ∧
      d.get? .script = found.find? (fun e => e.block.kind = .script && !e.block.isSetup) ∧
      (∀ i, d.get? (.style i) = (found.filter (·.block.kind = .style))[i]?) ∧
      ∀ name i, d.get? (.custom name i) = (found.filter (·.block.kind = .custom name))[i]?) ∧
    ((∀ e ∈ found, e ∉ refused ↔ ∃! s, d.get? s = some e) ∧
      (∀ e ∈ refused, ∀ s, d.get? s ≠ some e) ∧ refused.Nodup ∧
      errors = refused.map (fun e => duplicate e.block) ∧
      errors.map (·.span) = refused.map (·.block.span)) ∧
    ((∀ s e, (s, e) ∈ d.slots ↔ d.get? s = some e) ∧ (d.slots.map (·.1)).Nodup) ∧
    (d.documentOrder.Perm d.slots ∧
      d.documentOrder.Pairwise (fun a b => a.2.block.span.start ≤ b.2.block.span.start) ∧
      ∀ x, d.documentOrder.filter (·.2.block.span.start = x) =
        d.slots.filter (·.2.block.span.start = x)) ∧
    ∀ (parse' : Nat) (l r : List Block) (b : Block) (s : Slot), blocks = l ++ r →
      s.kind ≠ b.kind ∨ s.isSetup ≠ b.isSetup →
      ((ofBlocks parse' (l ++ b :: r)).1.get? s).map (·.block) = (d.get? s).map (·.block) := by
  intro d errors found refused
  have first : ∀ s : Slot, s.index? = none → d.get? s = found.find? fun e => s.suits e.block := by
    intro s hs
    rw [get?_ofBlocks, hs, Option.getD_none, ← List.head?_eq_getElem?, List.head?_filter]
  have htemplate : d.get? .template = found.find? (·.block.kind = .template) := by
    simpa using first .template rfl
  have hsetup : d.get? .scriptSetup =
      found.find? fun e => e.block.kind = .script && e.block.isSetup := by
    simpa [Block.isSetup] using first .scriptSetup rfl
  have hscript : d.get? .script =
      found.find? fun e => e.block.kind = .script && !e.block.isSetup := by
    simpa using first .script rfl
  have hstyle : ∀ i, d.get? (.style i) = (found.filter (·.block.kind = .style))[i]? := by
    intro i
    simpa [Slot.index?] using get?_ofBlocks parse blocks (.style i)
  have hcustom : ∀ name i,
      d.get? (.custom name i) = (found.filter (·.block.kind = .custom name))[i]? := by
    intro name i
    simpa [Slot.index?] using get?_ofBlocks parse blocks (.custom name i)
  have hfiled : ∀ e ∈ found, e ∉ refused ↔ ∃! s, d.get? s = some e := by
    intro e he
    have hlisted : e ∉ refused ↔ ∃ s, d.get? s = some e := by
      rw [← mem_map_snd_slots]
      simp [refused, he]
    rw [hlisted]
    constructor
    · rintro ⟨s, hs⟩
      exact ⟨s, hs, fun t ht => slot_eq_of_get? (nodup_entries parse blocks) ht hs⟩
    · rintro ⟨s, hs, -⟩
      exact ⟨s, hs⟩
  have hunfiled : ∀ e ∈ refused, ∀ s, d.get? s ≠ some e := by
    intro e he s hs
    have hout := (List.mem_filter.1 he).2
    rw [decide_eq_true_eq, mem_map_snd_slots] at hout
    exact hout ⟨s, hs⟩
  have herrors : errors = refused.map fun e => duplicate e.block := by
    have hrefused : refused = found.filter (· ∉ d.entries) :=
      List.filter_congr fun e _ => by simp only [d.perm_slots.mem_iff]
    rw [hrefused]
    exact errors_addAll (d := {}) (l := found) (by simpa [entries] using nodup_stamped parse blocks)
  have hspans : errors.map (·.span) = refused.map (·.block.span) := by
    rw [herrors, List.map_map]
    rfl
  refine ⟨⟨htemplate, hsetup, hscript, hstyle, hcustom⟩,
    ⟨hfiled, hunfiled, (nodup_stamped parse blocks).filter _, herrors, hspans⟩,
    ⟨fun s e => mem_slots, d.nodup_slots⟩,
    ⟨d.perm_documentOrder, d.sorted_documentOrder, d.filter_documentOrder⟩, ?_⟩
  rintro parse' l r b s rfl hs
  have hother : s.suits b = false := by
    rw [Slot.suits, Bool.and_eq_false_iff, decide_eq_false_iff_not, decide_eq_false_iff_not]
    exact hs.imp Ne.symm Ne.symm
  rw [map_block_get?_insert parse' l r hother, map_block_get?_ofBlocks, map_block_get?_ofBlocks]

theorem ofBlocks_by_kind_custom :
    let template : Block := ⟨.template, none, .ofList [], ⟨10, 11⟩, "t"⟩
    let first : Block := ⟨.custom "i18n", none, .ofList [], ⟨30, 31⟩, "a"⟩
    let docs : Block := ⟨.custom "docs", none, .ofList [], ⟨40, 41⟩, "d"⟩
    let second : Block := ⟨.custom "i18n", none, .ofList [], ⟨50, 51⟩, "b"⟩
    let again : Block := ⟨.template, none, .ofList [], ⟨70, 72⟩, "tt"⟩
    let blocks := [template, first, second, again]
    let slot : Slot := .custom "i18n" 1
    slot.kind ≠ docs.kind ∧ (ofBlocks 0 blocks).2.map (·.span) = [again.span] ∧
      (ofBlocks 0 blocks).1.get? slot = some ⟨.parsed 0 2, second⟩ ∧
      ((ofBlocks 1 ([template, first] ++ docs :: [second, again])).1.get? slot).map (·.block) =
        some second := by
  intro template first docs second again blocks slot
  obtain ⟨⟨-, -, -, -, hcustom⟩, ⟨-, -, -, -, hspans⟩, -, -, hinsert⟩ := ofBlocks_by_kind 0 blocks
  have hkind : slot.kind ≠ docs.kind := by decide
  have hslot : (ofBlocks 0 blocks).1.get? slot = some ⟨.parsed 0 2, second⟩ :=
    (hcustom "i18n" 1).trans (by decide)
  refine ⟨hkind, hspans.trans (by decide), hslot, ?_⟩
  rw [hinsert 1 [template, first] [second, again] docs slot rfl (.inl hkind), hslot,
    Option.map_some]

end Outline

end BlockLens
