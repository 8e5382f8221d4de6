import BlockLens.Outline

set_option autoImplicit false

namespace BlockLens

theorem Block.eq_of_sameAs {a b : Block} (h : a.sameAs b = true) (hk : a.kind = b.kind) : a = b := by
  obtain ⟨ka, la, aa, sa, ca⟩ := a
  obtain ⟨kb, lb, ab, sb, cb⟩ := b
  simp only [sameAs, Bool.and_eq_true, decide_eq_true_eq] at h hk
  obtain ⟨⟨⟨rfl, rfl⟩, rfl⟩, rfl⟩ := h
  simp [hk]

namespace Slot

/-- The block is of the sort that the slot and its like under other indices are for. -/
def suits (s : Slot) (b : Block) : Bool := b.kind = s.kind && b.isSetup = s.isSetup

@[simp] theorem suits_template (b : Block) :
    Slot.template.suits b = decide (b.kind = .template) := by
  by_cases h : b.kind = .template <;> simp [suits, kind, isSetup, Block.isSetup, h]

@[simp] theorem suits_script (b : Block) :
    Slot.script.suits b = (decide (b.kind = .script) && !b.isSetup) := by
  by_cases h : b.kind = .script <;> cases hs : b.isSetup <;> simp [suits, kind, isSetup, h, hs]

@[simp] theorem suits_scriptSetup (b : Block) : Slot.scriptSetup.suits b = b.isSetup := by
  by_cases h : b.kind = .script <;> simp [suits, kind, isSetup, Block.isSetup, h]

@[simp] theorem suits_style (i : Nat) (b : Block) :
    (Slot.style i).suits b = decide (b.kind = .style) := by
  by_cases h : b.kind = .style <;> simp [suits, kind, isSetup, Block.isSetup, h]

@[simp] theorem suits_custom (name : String) (i : Nat) (b : Block) :
    (Slot.custom name i).suits b = decide (b.kind = .custom name) := by
  by_cases h : b.kind = .custom name <;> simp [suits, kind, isSetup, Block.isSetup, h]

theorem eq_of_single {s t : Slot} (hk : s.kind = t.kind) (hs : s.isSetup = t.isSetup)
    (h : t.index? = none) : s = t := by
  cases s <;> cases t <;> simp_all [kind, isSetup, index?]

end Slot

namespace Outline

structure Kinded (d : Outline) : Prop where
  template : ∀ e ∈ d.template, e.block.kind = .template
  script : ∀ e ∈ d.script, e.block.kind = .script
  scriptSetup : ∀ e ∈ d.scriptSetup, e.block.kind = .script
  styles : ∀ e ∈ d.styles, e.block.kind = .style
  customs : ∀ e ∈ d.customs, ∃ n, e.block.kind = .custom n

theorem Kinded.kind_eq {d : Outline} (h : d.Kinded) {s : Slot} {e : Entry}
    (he : d.get? s = some e) : e.block.kind = s.kind := by
  cases s with
  | template => exact h.template e he
  | script => exact h.script e he
  | scriptSetup => exact h.scriptSetup e he
  | style i => exact h.styles e (List.mem_of_getElem? he)
  | custom name i =>
    have hm := List.mem_of_getElem? he
    simp only [List.mem_filter, decide_eq_true_eq] at hm
    obtain ⟨n, hn⟩ := h.customs e hm.1
    rw [hn] at hm
    simp only [Kind.tag] at hm
    rw [hn, hm.2]
    rfl

theorem kinded_empty : ({} : Outline).Kinded := by constructor <;> simp

def tagged (name : String) (l : List Entry) : List Entry := l.filter fun e => e.block.kind.tag = name

theorem getElem?_number (f : Slot → Entry → Entry) (seen : List String) (l : List Entry)
    (hf : ∀ n i e, e ∈ l → e.block.kind.tag = n → (f (.custom n i) e).block.kind.tag = n)
    (name : String) (i : Nat) :
    (tagged name ((number seen l).map fun p => f p.1 p.2))[i]? =
      (tagged name l)[i]?.map (f (.custom name (seen.count name + i))) := by
  induction l generalizing seen i with
  | nil => simp [number, tagged]
  | cons e l ih =>
    have hl := fun s i => ih s (fun n i e he => hf n i e (by simp [he])) i
    have ht := hf e.block.kind.tag (seen.count e.block.kind.tag) e (by simp) rfl
    simp only [tagged] at hl
    simp only [number, List.map_cons, tagged, List.filter_cons, ht]
    by_cases hn : e.block.kind.tag = name
    · subst hn
      cases i with
      | zero => simp
      | succ i =>
        simp only [decide_true, if_true, List.getElem?_cons_succ, hl]
        rw [List.count_cons_self, Nat.add_right_comm, Nat.add_assoc]
    · simp only [hn, decide_false, Bool.false_eq_true, if_false, hl]
      rw [List.count_cons_of_ne hn]

theorem mem_number {seen : List String} {l : List Entry} {s : Slot} {e : Entry} :
    (s, e) ∈ number seen l ↔
      ∃ name i, s = .custom name (seen.count name + i) ∧ (tagged name l)[i]? = some e := by
  induction l generalizing seen with
  | nil => simp [number, tagged]
  | cons a l ih =>
    simp only [number, List.mem_cons, Prod.mk.injEq, ih, tagged, List.filter_cons]
    constructor
    · rintro (⟨rfl, rfl⟩ | ⟨name, i, rfl, hi⟩)
      · exact ⟨e.block.kind.tag, 0, by simp, by simp⟩
      · by_cases hn : a.block.kind.tag = name
        · refine ⟨name, i + 1, ?_, by simpa [hn] using hi⟩
          subst hn
          rw [List.count_cons_self, Nat.add_right_comm, Nat.add_assoc]
        · refine ⟨name, i, ?_, by simpa [hn] using hi⟩
          rw [List.count_cons_of_ne hn]
    · rintro ⟨name, i, rfl, hi⟩
      by_cases hn : a.block.kind.tag = name
      · subst hn
        cases i with
        | zero => exact .inl ⟨by simp, by simpa [eq_comm] using hi⟩
        | succ i =>
          refine .inr ⟨_, i, ?_, by simpa using hi⟩
          rw [List.count_cons_self, Nat.add_right_comm, Nat.add_assoc]
      · refine .inr ⟨name, i, ?_, by simpa [hn] using hi⟩
        rw [List.count_cons_of_ne hn]

theorem mem_customSlots {d : Outline} {s : Slot} {e : Entry} :
    (s, e) ∈ d.customSlots ↔ ∃ name i, s = .custom name i ∧ d.get? s = some e := by
  simp only [customSlots, mem_number, List.count_nil, Nat.zero_add]
  constructor
  · rintro ⟨name, i, rfl, h⟩
    exact ⟨name, i, rfl, h⟩
  · rintro ⟨name, i, rfl, h⟩
    exact ⟨name, i, rfl, h⟩

/-- Listing and looking up agree, though the index of a custom block is counted in one and taken
from a filtered list in the other. -/
theorem mem_slots {d : Outline} {s : Slot} {e : Entry} : (s, e) ∈ d.slots ↔ d.get? s = some e := by
  simp only [slots, List.mem_append, Option.mem_toList, Option.map_eq_some_iff, Prod.mk.injEq,
    List.mem_mapIdx, mem_customSlots]
  constructor
  · rintro ((((⟨a, ha, rfl, rfl⟩ | ⟨a, ha, rfl, rfl⟩) | ⟨a, ha, rfl, rfl⟩) | ⟨i, hi, h⟩) |
      ⟨name, i, rfl, h⟩)
    · exact ha
    · exact ha
    · exact ha
    · obtain ⟨rfl, rfl⟩ := h
      exact List.getElem?_eq_getElem hi
    · exact h
  · intro h
    cases s with
    | template => exact .inl (.inl (.inr ⟨e, h, rfl, rfl⟩))
    | script => exact .inl (.inl (.inl (.inr ⟨e, h, rfl, rfl⟩)))
    | scriptSetup => exact .inl (.inl (.inl (.inl ⟨e, h, rfl, rfl⟩)))
    | style i =>
      obtain ⟨hi, he⟩ := List.getElem?_eq_some_iff.1 h
      exact .inl (.inr ⟨i, hi, by simp [he]⟩)
    | custom name i => exact .inr ⟨name, i, rfl, h⟩

def entries (d : Outline) : List Entry :=
  d.template.toList ++ d.script.toList ++ d.scriptSetup.toList ++ d.styles ++ d.customs

theorem mem_entries_of_get? {d : Outline} {s : Slot} {e : Entry} (h : d.get? s = some e) :
    e ∈ d.entries := by
  simp only [entries, List.mem_append, Option.mem_toList]
  cases s with
  | template => exact .inl (.inl (.inl (.inl h)))
  | script => exact .inl (.inl (.inl (.inr h)))
  | scriptSetup => exact .inl (.inl (.inr h))
  | style i => exact .inl (.inr (List.mem_of_getElem? h))
  | custom name i => exact .inr (List.mem_filter.1 (List.mem_of_getElem? h)).1

theorem map_snd_number (seen : List String) (l : List Entry) : (number seen l).map (·.2) = l := by
  induction l generalizing seen with
  | nil => rfl
  | cons e l ih => simp [number, ih]

theorem exists_get?_of_mem_entries {d : Outline} {e : Entry} (h : e ∈ d.entries) :
    ∃ s, d.get? s = some e := by
  simp only [entries, List.mem_append, Option.mem_toList] at h
  rcases h with (((h | h) | h) | h) | h
  · exact ⟨.template, h⟩
  · exact ⟨.script, h⟩
  · exact ⟨.scriptSetup, h⟩
  · obtain ⟨i, hi⟩ := List.mem_iff_getElem?.1 h
    exact ⟨.style i, hi⟩
  · have hs : e ∈ d.customSlots.map (·.2) := by rw [customSlots, map_snd_number]; exact h
    obtain ⟨⟨s, e'⟩, hp, rfl⟩ := List.mem_map.1 hs
    obtain ⟨-, -, -, hg⟩ := mem_customSlots.1 hp
    exact ⟨s, hg⟩

/-! ### Taking in a block -/

/-- The blocks among which the index of a slot counts. -/
def peers (d : Outline) : Slot → List Entry
  | .template => d.template.toList
  | .script => d.script.toList
  | .scriptSetup => d.scriptSetup.toList
  | .style _ => d.styles
  | .custom name _ => tagged name d.customs

theorem get?_eq_peers (d : Outline) (s : Slot) : d.get? s = (d.peers s)[s.index?.getD 0]? := by
  have single : ∀ x : Option Entry, x = x.toList[0]? := by
    intro x
    cases x <;> rfl
  cases s with
  | template => exact single _
  | script => exact single _
  | scriptSetup => exact single _
  | style i => rfl
  | custom name i => rfl

/-- How a block is taken in or refused, by its sort. -/
inductive Adds (d : Outline) (e : Entry) : Except ParseError Outline → Prop where
  | template (kind : e.block.kind = .template) (free : d.template = none) :
    Adds d e (.ok { d with template := some e })
  | scriptSetup (setup : e.block.isSetup = true) (free : d.scriptSetup = none) :
    Adds d e (.ok { d with scriptSetup := some e })
  | script (kind : e.block.kind = .script) (plain : e.block.isSetup = false)
    (free : d.script = none) : Adds d e (.ok { d with script := some e })
  | style (kind : e.block.kind = .style) : Adds d e (.ok { d with styles := d.styles ++ [e] })
  | custom (name : String) (kind : e.block.kind = .custom name) :
    Adds d e (.ok { d with customs := d.customs ++ [e] })
  | refused (s : Slot) (suits : s.suits e.block = true) (single : s.index? = none)
    (taken : (d.get? s).isSome = true) : Adds d e (.error (duplicate e.block))

theorem add_cases (d : Outline) (e : Entry) : Adds d e (d.add e) := by
  cases hk : e.block.kind with
  | template =>
    cases ht : d.template with
    | none => simpa [add, hk, ht] using Adds.template hk ht
    | some t => simpa [add, hk, ht] using Adds.refused .template (by simp [hk]) rfl (by simp [get?, ht])
  | script =>
    cases hs : e.block.isSetup with
    | true =>
      cases ht : d.scriptSetup with
      | none => simpa [add, hk, hs, ht] using Adds.scriptSetup hs ht
      | some t =>
        simpa [add, hk, hs, ht] using
          Adds.refused .scriptSetup (by simp [hs]) rfl (by simp [get?, ht])
    | false =>
      cases ht : d.script with
      | none => simpa [add, hk, hs, ht] using Adds.script hk hs ht
      | some t =>
        simpa [add, hk, hs, ht] using
          Adds.refused .script (by simp [hk, hs]) rfl (by simp [get?, ht])
  | style => simpa [add, hk] using Adds.style hk
  | custom name => simpa [add, hk] using Adds.custom name hk

theorem adds_of_add {d : Outline} {e : Entry} {r : Except ParseError Outline}
    (h : d.add e = r) : Adds d e r := h ▸ add_cases d e

theorem kind_of_isSetup {b : Block} (h : b.isSetup = true) : b.kind = .script := by
  simp only [Block.isSetup, Bool.and_eq_true, decide_eq_true_eq] at h
  exact h.1

theorem isSetup_of_kind {b : Block} (h : b.kind ≠ .script) : b.isSetup = false := by
  simp [Block.isSetup, h]

theorem Adds.eq {d : Outline} {e : Entry} {r : Except ParseError Outline} (h : Adds d e r) :
    d.add e = r := by
  cases h with
  | template hk free => simp [add, hk, free]
  | scriptSetup hs free => simp [add, kind_of_isSetup hs, hs, free]
  | script hk plain free => simp [add, hk, plain, free]
  | style hk => simp [add, hk]
  | custom name hk => simp [add, hk]
  | refused s suits single taken =>
    cases s with
    | template => simp_all [add, get?]
    | script => simp_all [add, get?]
    | scriptSetup => simp_all [add, get?, kind_of_isSetup]
    | style i => simp [Slot.index?] at single
    | custom name i => simp [Slot.index?] at single

theorem peers_add {d d' : Outline} {e : Entry} (hd : d.add e = .ok d') (s : Slot) :
    d'.peers s = d.peers s ++ if s.suits e.block then [e] else [] := by
  cases adds_of_add hd with
  | template hk free =>
    have hs := isSetup_of_kind (b := e.block) (by simp [hk])
    cases s <;> simp [peers, hk, hs, free]
  | scriptSetup hs free =>
    have hk := kind_of_isSetup hs
    cases s <;> simp [peers, hk, hs, free]
  | script hk plain free => cases s <;> simp [peers, hk, plain, free]
  | style hk =>
    have hs := isSetup_of_kind (b := e.block) (by simp [hk])
    cases s <;> simp [peers, hk, hs]
  | custom name hk =>
    have hs := isSetup_of_kind (b := e.block) (by simp [hk])
    cases s with
    | custom n i => by_cases hn : name = n <;> simp [peers, tagged, Kind.tag, hk, hn]
    | _ => simp [peers, hk, hs]

theorem taken_of_add {d : Outline} {e : Entry} {x : ParseError} (hd : d.add e = .error x) :
    x = duplicate e.block ∧
      ∀ s : Slot, s.suits e.block = true → s.index? = none ∧ d.peers s ≠ [] := by
  cases adds_of_add hd with
  | refused t suits single taken =>
    refine ⟨rfl, fun s hs => ?_⟩
    have hst : s = t := by
      simp only [Slot.suits, Bool.and_eq_true, decide_eq_true_eq] at suits hs
      exact Slot.eq_of_single (hs.1.symm.trans suits.1) (hs.2.symm.trans suits.2) single
    rw [hst]
    exact ⟨single, fun hnil => by simp [get?_eq_peers, hnil] at taken⟩

theorem perm_entries_add {d d' : Outline} {e : Entry} (hd : d.add e = .ok d') :
    d'.entries.Perm (e :: d.entries) := by
  refine List.perm_iff_count.2 fun a => ?_
  cases adds_of_add hd <;> simp_all [entries, List.count_cons] <;> omega

theorem Kinded.add {d d' : Outline} (h : d.Kinded) {e : Entry} (hd : d.add e = .ok d') :
    d'.Kinded := by
  cases adds_of_add hd with
  | template hk => exact { h with template := by simpa using hk }
  | scriptSetup hs => exact { h with scriptSetup := by simpa using kind_of_isSetup hs }
  | script hk => exact { h with script := by simpa using hk }
  | style hk =>
    refine { h with styles := fun x hx => ?_ }
    rcases List.mem_append.1 hx with hx | hx
    · exact h.styles x hx
    · rw [List.mem_singleton.1 hx, hk]
  | custom name hk =>
    refine { h with customs := fun x hx => ?_ }
    rcases List.mem_append.1 hx with hx | hx
    · exact h.customs x hx
    · exact ⟨name, by rw [List.mem_singleton.1 hx, hk]⟩

theorem Kinded.addAll {d : Outline} (h : d.Kinded) (l : List Entry) :
    (d.addAll l).1.Kinded ∧ ∀ x ∈ (d.addAll l).1.entries, x ∈ l ∨ x ∈ d.entries := by
  induction l generalizing d with
  | nil => exact ⟨h, fun x hx => .inr hx⟩
  | cons e l ih =>
    simp only [Outline.addAll]
    split
    · next d' hd =>
      obtain ⟨hk', he'⟩ := ih (h.add hd)
      refine ⟨hk', fun x hx => ?_⟩
      rcases he' x hx with hx | hx
      · exact .inl (by simp [hx])
      · rcases List.mem_cons.1 ((perm_entries_add hd).mem_iff.1 hx) with hx | hx
        · exact .inl (by simp [hx])
        · exact .inr hx
    · obtain ⟨hk', he'⟩ := ih h
      refine ⟨hk', fun x hx => ?_⟩
      rcases he' x hx with hx | hx
      · exact .inl (by simp [hx])
      · exact .inr hx

theorem kinded_ofBlocks (parse : Nat) (blocks : List Block) : (ofBlocks parse blocks).1.Kinded :=
  (kinded_empty.addAll _).1

theorem mem_entries_ofBlocks {parse : Nat} {blocks : List Block} {e : Entry}
    (h : e ∈ (ofBlocks parse blocks).1.entries) :
    ∃ i, e.stamp = .parsed parse i ∧ blocks[i]? = some e.block := by
  rcases (kinded_empty.addAll _).2 e h with h | h
  · obtain ⟨i, hi, rfl⟩ := List.mem_mapIdx.1 h
    exact ⟨i, rfl, List.getElem?_eq_getElem hi⟩
  · simp [entries] at h

theorem length_addAll (d : Outline) (l : List Entry) :
    (d.addAll l).1.styles.length ≤ d.styles.length + l.length ∧
      (d.addAll l).1.customs.length ≤ d.customs.length + l.length := by
  induction l generalizing d with
  | nil => exact ⟨Nat.le_refl _, Nat.le_refl _⟩
  | cons e l ih =>
    have hadd : ∀ d', d.add e = .ok d' →
        d'.styles.length ≤ d.styles.length + 1 ∧ d'.customs.length ≤ d.customs.length + 1 := by
      intro d' hd
      cases adds_of_add hd <;> simp
    simp only [addAll, List.length_cons]
    split
    · next d' hd =>
      have h := hadd d' hd
      have h' := ih d'
      omega
    · have h := ih d
      dsimp only
      omega

theorem index_lt_of_get?_ofBlocks {parse : Nat} {blocks : List Block} {s : Slot} {e : Entry}
    (h : (ofBlocks parse blocks).1.get? s = some e) {n : Nat} (hn : s.index? = some n) :
    n < blocks.length := by
  have hlen := length_addAll {} (blocks.mapIdx fun i b => ⟨.parsed parse i, b⟩)
  simp only [List.length_nil, Nat.zero_add, List.length_mapIdx] at hlen
  cases s with
  | template => simp [Slot.index?] at hn
  | script => simp [Slot.index?] at hn
  | scriptSetup => simp [Slot.index?] at hn
  | style i =>
    obtain rfl : i = n := by simpa [Slot.index?] using hn
    exact Nat.lt_of_lt_of_le (List.getElem?_eq_some_iff.1 h).1 hlen.1
  | custom name i =>
    obtain rfl : i = n := by simpa [Slot.index?] using hn
    refine Nat.lt_of_lt_of_le (List.getElem?_eq_some_iff.1 h).1 (Nat.le_trans ?_ hlen.2)
    exact List.length_filter_le _ _

theorem get?_add {d d' : Outline} {x : Entry} (hd : d.add x = .ok d') {s : Slot} {e : Entry}
    (h : d.get? s = some e) : d'.get? s = some e := by
  rw [get?_eq_peers] at h ⊢
  rw [peers_add hd, List.getElem?_append_left (List.getElem?_eq_some_iff.1 h).1, h]

theorem get?_addAll {d : Outline} {s : Slot} {e : Entry} (h : d.get? s = some e) (l : List Entry) :
    (d.addAll l).1.get? s = some e := by
  induction l generalizing d with
  | nil => exact h
  | cons x l ih =>
    simp only [Outline.addAll]
    split
    · next d' hd => exact ih (get?_add hd h)
    · exact ih h

theorem exists_get?_add {d d' : Outline} {e : Entry} (hd : d.add e = .ok d') :
    ∃ s, d'.get? s = some e :=
  exists_get?_of_mem_entries ((perm_entries_add hd).mem_iff.2 List.mem_cons_self)

theorem exists_get?_addAll {d : Outline} {l : List Entry} (h : (d.addAll l).2 = []) {e : Entry}
    (he : e ∈ l) : ∃ s, (d.addAll l).1.get? s = some e := by
  induction l generalizing d with
  | nil => simp at he
  | cons x l ih =>
    cases hd : d.add x with
    | error y => simp [Outline.addAll, hd] at h
    | ok d' =>
      simp only [Outline.addAll, hd] at h ⊢
      rcases List.mem_cons.1 he with rfl | he
      · obtain ⟨s, hs⟩ := exists_get?_add hd
        exact ⟨s, get?_addAll hs l⟩
      · exact ih h he

theorem addAll_append (d : Outline) (l r : List Entry) :
    d.addAll (l ++ r) =
      (((d.addAll l).1.addAll r).1, (d.addAll l).2 ++ ((d.addAll l).1.addAll r).2) := by
  induction l generalizing d with
  | nil => simp [Outline.addAll]
  | cons e l ih =>
    simp only [List.cons_append, Outline.addAll]
    split
    · exact ih _
    · simp [ih]

theorem ofBlocks_append (parse : Nat) (l r : List Block) :
    ∃ es, ofBlocks parse (l ++ r) =
      (((ofBlocks parse l).1.addAll es).1,
        (ofBlocks parse l).2 ++ ((ofBlocks parse l).1.addAll es).2) := by
  refine ⟨r.mapIdx fun i b => ⟨.parsed parse (i + l.length), b⟩, ?_⟩
  simp only [ofBlocks, List.mapIdx_append, addAll_append]

/-! ### Adopting -/

theorem adopt_cases (prev : Option Entry) (e : Entry) :
    Entry.adopt prev e = e ∨ ∃ p, prev = some p ∧ Entry.adopt prev e = p ∧ p.block.sameAs e.block := by
  cases prev with
  | none => exact .inl rfl
  | some p =>
    by_cases h : p.block.sameAs e.block = true
    · exact .inr ⟨p, rfl, by simp [Entry.adopt, h], h⟩
    · exact .inl (by simp [Entry.adopt, h])

theorem block_adopt {prev d : Outline} (hp : prev.Kinded) (hd : d.Kinded) {s : Slot} {e : Entry}
    (he : d.get? s = some e) : (Entry.adopt (prev.get? s) e).block = e.block := by
  rcases adopt_cases (prev.get? s) e with h | ⟨p, hs, h, hsame⟩
  · rw [h]
  · rw [h]
    exact Block.eq_of_sameAs hsame ((hp.kind_eq hs).trans (hd.kind_eq he).symm)

theorem get?_adopt {prev : Outline} (hp : prev.Kinded) (d : Outline) (s : Slot) :
    (prev.adopt d).get? s = (d.get? s).map (Entry.adopt (prev.get? s)) := by
  cases s with
  | template => rfl
  | script => rfl
  | scriptSetup => rfl
  | style i => simp [get?, adopt]
  | custom name i =>
    have h := getElem?_number (fun s e => Entry.adopt (prev.get? s) e) [] d.customs
      (fun n j e he hn => ?_) name i
    · simpa [tagged, get?, adopt, customSlots] using h
    · rcases adopt_cases (prev.get? (.custom n j)) e with h | ⟨p, hs, h, -⟩
      · simp only [h, hn]
      · simp only [h, hp.kind_eq hs]
        rfl

theorem mem_entries_adopt {prev d : Outline} (hp : prev.Kinded) {e : Entry}
    (h : e ∈ (prev.adopt d).entries) : e ∈ d.entries ∨ e ∈ prev.entries := by
  obtain ⟨s, hs⟩ := exists_get?_of_mem_entries h
  rw [get?_adopt hp, Option.map_eq_some_iff] at hs
  obtain ⟨a, ha, rfl⟩ := hs
  rcases adopt_cases (prev.get? s) a with h | ⟨p, hp, h, -⟩
  · rw [h]; exact .inl (mem_entries_of_get? ha)
  · rw [h]; exact .inr (mem_entries_of_get? hp)

theorem Kinded.adopt {prev d : Outline} (hp : prev.Kinded) (hd : d.Kinded) : (prev.adopt d).Kinded := by
  have slot : ∀ (s : Slot) (e : Entry), (prev.adopt d).get? s = some e → e.block.kind = s.kind := by
    intro s e he
    rw [get?_adopt hp, Option.map_eq_some_iff] at he
    obtain ⟨a, ha, rfl⟩ := he
    rw [block_adopt hp hd ha, hd.kind_eq ha]
  refine ⟨fun e he => slot .template e he, fun e he => slot .script e he,
    fun e he => slot .scriptSetup e he, fun e he => ?_, fun e he => ?_⟩
  · obtain ⟨i, hi⟩ := List.mem_iff_getElem?.1 he
    exact slot (.style i) e hi
  · simp only [Outline.adopt, List.mem_map] at he
    obtain ⟨⟨s, a⟩, hm, rfl⟩ := he
    obtain ⟨name, i, rfl, hg⟩ := mem_customSlots.1 hm
    exact ⟨name, by rw [block_adopt hp hd hg, hd.kind_eq hg]; rfl⟩

theorem mem_of_inherited {own prev : Option Entry} {e : Entry} (h : inherited own prev = some e) :
    own = none ∧ prev = some e ∧ e.block.isFallback = false := by
  cases own <;> cases prev <;> simp [inherited] at h ⊢
  exact ⟨h.2, h.2 ▸ h.1⟩

theorem mem_entries_carryOver {prev d : Outline} {e : Entry} (h : e ∈ (prev.carryOver d).entries) :
    e ∈ d.entries ∨ e ∈ prev.entries := by
  simp only [entries, carryOver, List.mem_append, Option.mem_toList, Option.or_eq_some_iff,
    List.mem_map, List.mem_filter, Prod.exists] at h ⊢
  rcases h with (((h | h) | h) | (h | h)) | (h | ⟨s, a, ⟨hm, -⟩, rfl⟩)
  · rcases h with h | ⟨-, h⟩
    · simp [h]
    · simp [(mem_of_inherited h).2.1]
  · rcases h with h | ⟨-, h⟩
    · simp [h]
    · simp [(mem_of_inherited h).2.1]
  · rcases h with h | ⟨-, h⟩
    · simp [h]
    · simp [(mem_of_inherited h).2.1]
  · simp [h]
  · simp [List.mem_of_mem_drop h]
  · simp [h]
  · have hc : a ∈ prev.customSlots.map (·.2) := List.mem_map.2 ⟨(s, a), hm, rfl⟩
    rw [customSlots, map_snd_number] at hc
    simp [hc]

theorem Kinded.carryOver {prev d : Outline} (hp : prev.Kinded) (hd : d.Kinded) :
    (prev.carryOver d).Kinded := by
  refine ⟨fun e he => ?_, fun e he => ?_, fun e he => ?_, fun e he => ?_, fun e he => ?_⟩
  · rcases Option.or_eq_some_iff.1 he with he | ⟨-, he⟩
    · exact hd.template e he
    · exact hp.template e (mem_of_inherited he).2.1
  · rcases Option.or_eq_some_iff.1 he with he | ⟨-, he⟩
    · exact hd.script e he
    · exact hp.script e (mem_of_inherited he).2.1
  · rcases Option.or_eq_some_iff.1 he with he | ⟨-, he⟩
    · exact hd.scriptSetup e he
    · exact hp.scriptSetup e (mem_of_inherited he).2.1
  · rcases List.mem_append.1 he with he | he
    · exact hd.styles e he
    · exact hp.styles e (List.mem_of_mem_drop he)
  · rcases List.mem_append.1 he with he | he
    · exact hd.customs e he
    · obtain ⟨⟨s, a⟩, hm, rfl⟩ := List.mem_map.1 he
      obtain ⟨name, i, rfl, hg⟩ := mem_customSlots.1 (List.mem_filter.1 hm).1
      exact ⟨name, hp.kind_eq hg⟩

/-- A template or a script that only stands in is not handed on. -/
def handsOn (s : Slot) (b : Block) : Bool := s.kind.repeats || !b.isFallback

theorem or_inherited (own prev : Option Entry) :
    own.or (inherited own prev) = own.or (prev.filter fun e => !e.block.isFallback) := by
  cases own with
  | some e => rfl
  | none =>
    cases prev with
    | none => rfl
    | some p =>
      by_cases h : p.block.isFallback = true
      · simp [inherited, Option.filter, h]
      · simp [inherited, Option.filter, h]

theorem getElem?_append_drop (l k : List Entry) (i : Nat) :
    (l ++ k.drop l.length)[i]? = l[i]?.or k[i]? := by
  by_cases hi : i < l.length
  · simp [List.getElem?_append_left hi, hi]
  · have hk : l.length + (i - l.length) = i := by omega
    rw [List.getElem?_append_right (by omega), List.getElem?_drop, hk,
      List.getElem?_eq_none (l := l) (by omega), Option.none_or]

theorem mem_map_fst_customSlots {d : Outline} {name : String} {i : Nat} :
    (Slot.custom name i) ∈ d.customSlots.map (·.1) ↔ i < (tagged name d.customs).length := by
  rw [List.mem_map]
  constructor
  · rintro ⟨⟨s, e⟩, hm, rfl⟩
    obtain ⟨-, -, -, hg⟩ := mem_customSlots.1 hm
    exact (List.getElem?_eq_some_iff.1 hg).1
  · intro h
    exact ⟨_, mem_customSlots.2 ⟨name, i, rfl, List.getElem?_eq_getElem h⟩, rfl⟩

theorem tagged_filter_number (taken : Slot → Bool) (name : String) {k : Nat}
    (ht : ∀ i, taken (.custom name i) = decide (i < k)) (seen : List String) (l : List Entry) :
    tagged name (((number seen l).filter fun p => !taken p.1).map (·.2)) =
      (tagged name l).drop (k - seen.count name) := by
  induction l generalizing seen with
  | nil => simp [number, tagged]
  | cons e l ih =>
    have ih' := ih (e.block.kind.tag :: seen)
    simp only [tagged] at ih' ⊢
    by_cases hn : e.block.kind.tag = name
    · rw [hn, List.count_cons_self] at ih'
      by_cases hk : seen.count name < k
      · have hd : k - seen.count name = k - (seen.count name + 1) + 1 := by omega
        simp [number, hn, ht, hk, ih', hd]
      · have hd : k - seen.count name = 0 := by omega
        have hd' : k - (seen.count name + 1) = 0 := by omega
        simp [number, hn, ht, hk, ih', hd, hd']
    · rw [List.count_cons_of_ne hn] at ih'
      cases hb : taken (.custom e.block.kind.tag (seen.count e.block.kind.tag)) <;>
        simp [number, hn, hb, ih']

/-- A slot keeps its own block, or else takes the one it held before. -/
theorem get?_carryOver (prev d : Outline) (s : Slot) :
    (prev.carryOver d).get? s = (d.get? s).or ((prev.get? s).filter fun e => handsOn s e.block) := by
  cases s with
  | template => exact or_inherited d.template prev.template
  | script => exact or_inherited d.script prev.script
  | scriptSetup => exact or_inherited d.scriptSetup prev.scriptSetup
  | style i =>
    have hall : (prev.styles[i]?).filter (fun e => handsOn (.style i) e.block) = prev.styles[i]? := by
      cases prev.styles[i]? <;> simp [handsOn, Slot.kind, Kind.repeats]
    simp only [get?, carryOver, hall, getElem?_append_drop]
  | custom name i =>
    have hall : ((tagged name prev.customs)[i]?).filter (fun e => handsOn (.custom name i) e.block) =
        (tagged name prev.customs)[i]? := by
      cases (tagged name prev.customs)[i]? <;> simp [handsOn, Slot.kind, Kind.repeats]
    have htaken : ∀ i, (d.customSlots.map (·.1)).contains (.custom name i) =
        decide (i < (tagged name d.customs).length) := by
      intro i
      simp only [List.contains_eq_mem, mem_map_fst_customSlots]
    have hover := tagged_filter_number _ name htaken [] prev.customs
    have hsplit : tagged name (prev.carryOver d).customs =
        tagged name d.customs ++ (tagged name prev.customs).drop (tagged name d.customs).length := by
      rw [List.count_nil, Nat.sub_zero] at hover
      rw [← hover]
      simp [carryOver, tagged, customSlots]
    change (tagged name (prev.carryOver d).customs)[i]? = (tagged name d.customs)[i]?.or
      ((tagged name prev.customs)[i]?.filter _)
    rw [hsplit, hall, getElem?_append_drop]

/-! ### Equal blocks in equal places -/

theorem sameBlocks_iff {a b : Outline} :
    a.sameBlocks b = true ↔
      a.template.map (·.block) = b.template.map (·.block) ∧
        a.script.map (·.block) = b.script.map (·.block) ∧
        a.scriptSetup.map (·.block) = b.scriptSetup.map (·.block) ∧
        a.styles.map (·.block) = b.styles.map (·.block) ∧
        a.customs.map (·.block) = b.customs.map (·.block) := by
  simp only [sameBlocks, Bool.and_eq_true, decide_eq_true_eq, and_assoc]

theorem sameBlocks_trans {a b c : Outline} (h : a.sameBlocks b = true) (h' : b.sameBlocks c = true) :
    a.sameBlocks c = true := by
  rw [sameBlocks_iff] at *
  obtain ⟨h₁, h₂, h₃, h₄, h₅⟩ := h
  obtain ⟨k₁, k₂, k₃, k₄, k₅⟩ := h'
  exact ⟨h₁.trans k₁, h₂.trans k₂, h₃.trans k₃, h₄.trans k₄, h₅.trans k₅⟩

theorem map_block_get? {a b : Outline} (h : a.sameBlocks b = true) (s : Slot) :
    (a.get? s).map (·.block) = (b.get? s).map (·.block) := by
  obtain ⟨h₁, h₂, h₃, h₄, h₅⟩ := sameBlocks_iff.1 h
  cases s with
  | template => exact h₁
  | script => exact h₂
  | scriptSetup => exact h₃
  | style i => simp only [get?, ← List.getElem?_map, h₄]
  | custom name i =>
    have hf : ∀ l : List Entry, (l.filter fun e => e.block.kind.tag = name).map (·.block) =
        (l.map (·.block)).filter fun b => b.kind.tag = name := by
      intro l
      simp [List.filter_map, Function.comp_def]
    simp only [get?, ← List.getElem?_map, hf, h₅]

theorem map_fst_number {seen : List String} {l k : List Entry}
    (h : l.map (·.block) = k.map (·.block)) :
    (number seen l).map (·.1) = (number seen k).map (·.1) := by
  induction l generalizing seen k with
  | nil =>
    cases k with
    | nil => rfl
    | cons b k => simp at h
  | cons a l ih =>
    cases k with
    | nil => simp at h
    | cons b k =>
      simp only [List.map_cons, List.cons.injEq] at h
      simp [number, h.1, ih h.2]

theorem map_fst_slots {a b : Outline} (h : a.sameBlocks b = true) :
    a.slots.map (·.1) = b.slots.map (·.1) := by
  obtain ⟨h₁, h₂, h₃, h₄, h₅⟩ := sameBlocks_iff.1 h
  have fixed : ∀ (x y : Option Entry) (s : Slot), x.map (·.block) = y.map (·.block) →
      (x.map (s, ·)).toList.map (·.1) = (y.map (s, ·)).toList.map (·.1) := by
    intro x y s hxy
    cases x <;> cases y <;> simp_all
  have hs : (a.styles.mapIdx fun i e => (Slot.style i, e)).map (·.1) =
      (b.styles.mapIdx fun i e => (Slot.style i, e)).map (·.1) := by
    have hl : a.styles.length = b.styles.length := by simpa using congrArg List.length h₄
    apply List.ext_getElem <;> simp [hl]
  simp only [slots, List.map_append, fixed _ _ _ h₁, fixed _ _ _ h₂, fixed _ _ _ h₃, hs,
    customSlots, map_fst_number h₅]

/-- Adopting changes which objects are shared, and nothing else. -/
theorem sameBlocks_adopt {prev d : Outline} (hp : prev.Kinded) (hd : d.Kinded) :
    (prev.adopt d).sameBlocks d = true := by
  have fixed : ∀ (s : Slot) (x : Option Entry), d.get? s = x →
      (x.map (Entry.adopt (prev.get? s))).map (·.block) = x.map (·.block) := by
    rintro s (_ | e) he
    · rfl
    · simp [block_adopt hp hd he]
  refine sameBlocks_iff.2 ⟨fixed .template _ rfl, fixed .script _ rfl, fixed .scriptSetup _ rfl, ?_, ?_⟩
  · apply List.ext_getElem
    · simp [adopt]
    · intro i h₁ h₂
      simp only [adopt, List.getElem_map, List.getElem_mapIdx]
      simp only [List.length_map] at h₂
      exact block_adopt hp hd (s := .style i) (List.getElem?_eq_getElem h₂)
  · rw [← map_snd_number [] d.customs]
    simp only [adopt, customSlots, List.map_map]
    refine List.map_congr_left fun p hm => ?_
    obtain ⟨-, -, -, hg⟩ := mem_customSlots.1 hm
    simpa [map_snd_number] using block_adopt hp hd hg

/-- The number of the parse shows in the stamps only. -/
theorem Adds.congr {a b : Outline} {x y : Entry} {r : Except ParseError Outline} (h : Adds a x r)
    (hab : a.sameBlocks b = true) (hxy : x.block = y.block) :
    (∃ a' b', r = .ok a' ∧ Adds b y (.ok b') ∧ a'.sameBlocks b' = true) ∨
      ∃ err, r = .error err ∧ Adds b y (.error err) := by
  obtain ⟨h₁, h₂, h₃, h₄, h₅⟩ := sameBlocks_iff.1 hab
  have free : ∀ {u v : Option Entry}, u.map (·.block) = v.map (·.block) → u = none → v = none := by
    intro u v huv hu
    rwa [hu, Option.map_none, eq_comm, Option.map_eq_none_iff] at huv
  cases h with
  | template hk hf =>
    exact .inl ⟨_, _, rfl, .template (hxy ▸ hk) (free h₁ hf),
      sameBlocks_iff.2 ⟨by simp [hxy], h₂, h₃, h₄, h₅⟩⟩
  | scriptSetup hs hf =>
    exact .inl ⟨_, _, rfl, .scriptSetup (hxy ▸ hs) (free h₃ hf),
      sameBlocks_iff.2 ⟨h₁, h₂, by simp [hxy], h₄, h₅⟩⟩
  | script hk hs hf =>
    exact .inl ⟨_, _, rfl, .script (hxy ▸ hk) (hxy ▸ hs) (free h₂ hf),
      sameBlocks_iff.2 ⟨h₁, by simp [hxy], h₃, h₄, h₅⟩⟩
  | style hk =>
    exact .inl ⟨_, _, rfl, .style (hxy ▸ hk),
      sameBlocks_iff.2 ⟨h₁, h₂, h₃, by simp [h₄, hxy], h₅⟩⟩
  | custom name hk =>
    exact .inl ⟨_, _, rfl, .custom name (hxy ▸ hk),
      sameBlocks_iff.2 ⟨h₁, h₂, h₃, h₄, by simp [h₅, hxy]⟩⟩
  | refused s hs single taken =>
    have htaken : (b.get? s).isSome = true := by
      have hs := congrArg Option.isSome (map_block_get? hab s)
      rwa [Option.isSome_map, Option.isSome_map, taken, eq_comm] at hs
    exact .inr ⟨_, rfl, hxy ▸ .refused s (hxy ▸ hs) single htaken⟩

theorem sameBlocks_addAll {a b : Outline} (h : a.sameBlocks b = true) {l k : List Entry}
    (hl : l.map (·.block) = k.map (·.block)) :
    (a.addAll l).1.sameBlocks (b.addAll k).1 = true ∧ (a.addAll l).2 = (b.addAll k).2 := by
  induction l generalizing a b k with
  | nil =>
    cases k with
    | nil => exact ⟨h, rfl⟩
    | cons y k => simp at hl
  | cons x l ih =>
    cases k with
    | nil => simp at hl
    | cons y k =>
      simp only [List.map_cons, List.cons.injEq] at hl
      rcases (a.add_cases x).congr h hl.1 with ⟨a', b', ha, hb, hab⟩ | ⟨err, ha, hb⟩
      · simpa only [addAll, ha, hb.eq] using ih hab hl.2
      · have hr := ih h hl.2
        simp only [addAll, ha, hb.eq]
        exact ⟨hr.1, by rw [hr.2]⟩

theorem sameBlocks_ofBlocks (m n : Nat) (blocks : List Block) :
    (ofBlocks m blocks).1.sameBlocks (ofBlocks n blocks).1 = true ∧
      (ofBlocks m blocks).2 = (ofBlocks n blocks).2 := by
  refine sameBlocks_addAll (by simp [sameBlocks]) ?_
  apply List.ext_getElem <;> simp

end Outline

end BlockLens
