import BlockLens.Proofs.Composite.StandIn

set_option autoImplicit false

namespace BlockLens

open Outline

namespace Composite

variable {o : Options}

/-- The first stand-in goes to the end. -/
theorem blocks_cases (c : Composite) :
    ((∀ b ∈ c.blocks, b.isFallback = false) ∧
      c.blocks = c.outline.documentOrder.map (·.2.block)) ∨
    ∃ u b v, c.outline.documentOrder.map (·.2.block) = u ++ b :: v ∧ b.isFallback = true ∧
      (∀ a ∈ u, a.isFallback = false) ∧ c.blocks = u ++ v ++ [b] := by
  unfold blocks
  generalize c.outline.documentOrder.map (·.2.block) = l
  cases h : l.findIdx? Block.isFallback with
  | none =>
    simp only [h]
    exact .inl ⟨by simpa using h, trivial⟩
  | some i =>
    obtain ⟨hi, hflag, hfirst⟩ := List.findIdx?_eq_some_iff_getElem.1 h
    refine .inr ⟨l.take i, l[i], l.drop (i + 1), by simp, hflag, fun a ha => ?_, ?_⟩
    · obtain ⟨j, hj, rfl⟩ := List.getElem_of_mem ha
      rw [List.getElem_take]
      rw [List.length_take] at hj
      simpa using hfirst j (by omega)
    · simp only [h, List.eraseIdx_eq_take_drop_succ, List.getElem?_eq_getElem hi,
        Option.toList_some]

theorem perm_blocks (c : Composite) : c.blocks.Perm (c.outline.slots.map (·.2.block)) := by
  have horder := c.outline.perm_documentOrder.map (·.2.block)
  rcases c.blocks_cases with ⟨-, hb⟩ | ⟨u, b, v, hl, -, -, hb⟩
  · rwa [hb]
  · rw [hl] at horder
    rw [hb]
    refine List.Perm.trans ?_ horder
    rw [List.append_assoc]
    exact (List.perm_append_singleton b v).append_left u

theorem filter_blocks (c : Composite) :
    c.blocks.filter (fun b => !b.isFallback) =
      (c.outline.documentOrder.map (·.2.block)).filter fun b => !b.isFallback := by
  rcases c.blocks_cases with ⟨-, hb⟩ | ⟨u, b, v, hl, hflag, -, hb⟩
  · rw [hb]
  · simp [hb, hl, hflag]

theorem blocks_of_one_fallback {c : Composite} (h : c.blocks.countP Block.isFallback = 1) :
    ∃ u b, c.blocks = u ++ [b] ∧ b.isFallback = true ∧ ∀ a ∈ u, a.isFallback = false := by
  rcases c.blocks_cases with ⟨hnone, -⟩ | ⟨u, b, v, -, hflag, -, hb⟩
  · have hzero : c.blocks.countP Block.isFallback = 0 :=
      List.countP_eq_zero.2 fun b hb => by simp [hnone b hb]
    omega
  · refine ⟨u ++ v, b, hb, hflag, fun a ha => ?_⟩
    have hzero : (u ++ v).countP Block.isFallback = 0 := by
      rw [hb, List.countP_append] at h
      simp only [List.countP_singleton, hflag, if_true] at h
      omega
    simpa using List.countP_eq_zero.1 hzero a ha

def Covers (c : Composite) (x : Nat) (s : Slot) (e : Entry) : Prop :=
  c.outline.get? s = some e ∧ e.block.isFallback = false ∧
    e.block.span.start ≤ x ∧ x ≤ e.block.span.stop

theorem covers_of_slotAt? {c : Composite} {x : Nat} {s : Slot} {e : Entry}
    (h : c.slotAt? x = some (s, e)) : c.Covers x s e := by
  have hmem := mem_documentOrder.1 (List.mem_of_find?_eq_some h)
  have hp := List.find?_some h
  simp only [Bool.and_eq_true, Bool.not_eq_true'] at hp
  exact ⟨hmem, hp.1, View.touches_iff.1 hp.2⟩

/-- Without a problem the look-up by offset finds the one block there. -/
theorem Consistent.slotAt?_eq_some_iff {c : Composite} (h : Consistent o c)
    (hparser : o.parser = Markup.split) {t : String} (ht : c.parsed = some t)
    (hgood : c.errors = []) {x : Nat} {s : Slot} {e : Entry} :
    c.slotAt? x = some (s, e) ↔ c.Covers x s e := by
  constructor
  · exact covers_of_slotAt?
  · rintro ⟨he, hcounts, hx⟩
    exact h.slotAt?_eq_some hparser ht hgood he hcounts (View.touches_iff.2 hx)

/-- Without a problem, blocks that count lie apart, in the order of the text. -/
theorem Consistent.apart {c : Composite} (h : Consistent o c) (hparser : o.parser = Markup.split)
    {t : String} (ht : c.parsed = some t) (hgood : c.errors = []) :
    (c.blocks.filter fun b => !b.isFallback).Pairwise fun a b => a.span.stop < b.span.start := by
  rw [filter_blocks, List.filter_map, List.pairwise_map]
  have hslots : (c.outline.documentOrder.filter fun p => !p.2.block.isFallback).Pairwise
      fun p q => p.1 ≠ q.1 := by
    have hnodup : (c.outline.documentOrder.map (·.1)).Nodup :=
      (c.outline.perm_documentOrder.map _).nodup_iff.2 c.outline.nodup_slots
    exact (List.pairwise_map.1 hnodup).filter _
  have hsorted := c.outline.sorted_documentOrder.filter fun p => !p.2.block.isFallback
  refine (hslots.and hsorted).imp_of_mem fun {p q} hp hq hpq => ?_
  obtain ⟨hne, hle⟩ := hpq
  obtain ⟨hp, hcp⟩ := List.mem_filter.1 hp
  obtain ⟨hq, hcq⟩ := List.mem_filter.1 hq
  simp only [Function.comp_apply, Bool.not_eq_true'] at hcp hcq
  -- two blocks that met would both be found where the later one begins
  by_contra hmeet
  have hq_start : q.2.block.span.start ≤ q.2.block.span.stop := by
    have hq' := h.produced_of_get? ht hgood (mem_documentOrder.1 hq) fun heq => by
      rw [heq] at hcq
      exact absurd hcq (by decide)
    have hmem := mem_blocks_of_produced hq'
    rw [hparser] at hmem
    obtain ⟨-, -, -, -, hstop⟩ := Markup.lies_of_mem_split hmem
    omega
  have hp' : c.slotAt? q.2.block.span.start = some p :=
    (h.slotAt?_eq_some_iff hparser ht hgood).2 ⟨mem_documentOrder.1 hp, hcp, hle, by omega⟩
  have hq' : c.slotAt? q.2.block.span.start = some q :=
    (h.slotAt?_eq_some_iff hparser ht hgood).2 ⟨mem_documentOrder.1 hq, hcq, by omega, hq_start⟩
  rw [hp', Option.some.injEq] at hq'
  exact hne (congrArg Prod.fst hq')

end Composite

namespace Document

variable {o : Options}

theorem documentAt_of_slotAt? {d : Document} {x : Nat} {s : Slot} {e : Entry}
    (h : (d.refresh o).composite.slotAt? x = some (s, e)) :
    d.documentAt o x = d.blockDocument o s := by
  simp only [documentAt, h, blockDocument, refresh_refresh]

theorem documentAt_of_not_slotAt? {d : Document} {x : Nat}
    (h : (d.refresh o).composite.slotAt? x = none) : d.documentAt o x = (none, d.refresh o) := by
  simp only [documentAt, h]

/-- After any run whose last parse found no problem, no two blocks that count cover one offset; the
look-up by offset gives the block that covers it, and the document of its slot, or nothing if there
is none. The list of blocks has the block of each filled slot once. Those that count stand in it
each behind the one before, and a single stand-in is the last. -/
theorem one_block_at_offset (hparser : o.parser = Markup.split) (file text : String)
    (version : Int) (ms : List Move) :
    let d := (ofText file text version).run o ms
    let c := (d.refresh o).composite
    c.errors = [] →
    (∀ x,
      (∀ s e s' e', c.Covers x s e → c.Covers x s' e' → s = s' ∧ e = e') ∧
      (∀ s e, c.Covers x s e →
        c.slotAt? x = some (s, e) ∧ d.documentAt o x = d.blockDocument o s) ∧
      ((∀ s e, ¬ c.Covers x s e) →
        c.slotAt? x = none ∧ d.documentAt o x = (none, d.refresh o))) ∧
    ((c.outline.slots.map (·.1)).Nodup ∧
      (∀ s e, (s, e) ∈ c.outline.slots ↔ c.outline.get? s = some e) ∧
      c.blocks.Perm (c.outline.slots.map (·.2.block))) ∧
    (c.blocks.filter fun b => !b.isFallback).Pairwise (fun a b => a.span.stop < b.span.start) ∧
    (c.blocks.countP Block.isFallback = 1 →
      ∃ u b, c.blocks = u ++ [b] ∧ b.isFallback = true ∧ ∀ a ∈ u, a.isFallback = false) := by
  intro d c hgood
  have hc : c.Consistent o := ((traced_ofText o file text version).run ms).refresh.consistent
  obtain ⟨t, ht⟩ := Option.isSome_iff_exists.1 (hc.isSome_parsed (Composite.dirty_refresh _ _))
  refine ⟨fun x => ⟨?_, ?_, ?_⟩, ⟨c.outline.nodup_slots, fun s e => mem_slots, c.perm_blocks⟩,
    hc.apart hparser ht hgood, Composite.blocks_of_one_fallback⟩
  · intro s e s' e' h h'
    have hs := (hc.slotAt?_eq_some_iff hparser ht hgood).2 h
    have hs' := (hc.slotAt?_eq_some_iff hparser ht hgood).2 h'
    rw [hs, Option.some.injEq, Prod.mk.injEq] at hs'
    exact hs'
  · intro s e h
    have hs := (hc.slotAt?_eq_some_iff hparser ht hgood).2 h
    exact ⟨hs, documentAt_of_slotAt? hs⟩
  · intro hnone
    have hs : c.slotAt? x = none := by
      cases h : c.slotAt? x with
      | none => rfl
      | some p => exact absurd (Composite.covers_of_slotAt? h) (hnone p.1 p.2)
    exact ⟨hs, documentAt_of_not_slotAt? hs⟩

theorem one_block_at_offset_template :
    let o : Options := ⟨Markup.split, .empty, none⟩
    let d := ofText "a.vue" "<script fallback></script><template>a</template>" 1
    let c := (d.refresh o).composite
    let e : Entry := ⟨.parsed 0 1, ⟨.template, none, .ofList [], ⟨36, 37⟩, "a"⟩⟩
    c.errors = [] ∧ c.slotAt? 37 = some (.template, e) ∧
      d.documentAt o 37 = d.blockDocument o .template ∧ c.slotAt? 17 = none ∧
      ∃ u b, c.blocks = u ++ [b] ∧ b.isFallback = true ∧ ∀ a ∈ u, a.isFallback = false := by
  intro o d c e
  have hgood : c.errors = [] := by decide +kernel
  have hcovers : c.Covers 37 .template e := by
    refine ⟨by decide +kernel, by decide, by decide, by decide⟩
  have hopen : ∀ e ∈ c.outline.entries, e.block.isFallback = false →
      ¬ (e.block.span.start ≤ 17 ∧ 17 ≤ e.block.span.stop) := by decide +kernel
  have hone : c.blocks.countP Block.isFallback = 1 := by
    rw [c.perm_blocks.countP_eq]
    decide +kernel
  obtain ⟨hat, -, -, hlast⟩ := one_block_at_offset (o := o) rfl "a.vue"
    "<script fallback></script><template>a</template>" 1 [] hgood
  obtain ⟨hfound, hdocument⟩ := (hat 37).2.1 .template e hcovers
  obtain ⟨hnone, -⟩ := (hat 17).2.2 fun s e' h => hopen e' (mem_entries_of_get? h.1) h.2.1 h.2.2
  exact ⟨hgood, hfound, hdocument, hnone, hlast hone⟩

end Document

end BlockLens
