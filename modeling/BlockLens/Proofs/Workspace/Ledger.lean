import BlockLens.Proofs.Workspace.Action
/-!
The objects that a composite ever made. A ledger lists its block documents and the entries of its
outlines, live or not; a stamp belongs to one entry and a serial to one document.
-/

set_option autoImplicit false

namespace BlockLens

structure Ledger where
  docs : BlockDocument → Prop
  entries : Entry → Prop

namespace Ledger

open Outline

def Within (a b : Ledger) : Prop := (∀ d, a.docs d → b.docs d) ∧ ∀ e, a.entries e → b.entries e

theorem Within.refl (a : Ledger) : a.Within a := ⟨fun _ h => h, fun _ h => h⟩

theorem Within.trans {a b c : Ledger} (h : a.Within b) (h' : b.Within c) : a.Within c :=
  ⟨fun d hd => h'.1 d (h.1 d hd), fun e he => h'.2 e (h.2 e he)⟩

def start : Ledger := ⟨fun _ => False, (· = Composite.fallback)⟩

structure Covers (a : Ledger) (c : Composite) : Prop where
  live : ∀ d ∈ c.live, a.docs d
  outline : ∀ e ∈ c.outline.entries, a.entries e
  fallback : a.entries Composite.fallback
  initial : ∀ d, a.docs d → a.entries d.initial
  serial : ∀ d, a.docs d → d.serial < c.created
  parse : ∀ e p i, a.entries e → e.stamp = .parsed p i → p < c.parses
  oneDoc : ∀ d d', a.docs d → a.docs d' → d.serial = d'.serial → d = d'
  oneEntry : ∀ e e', a.entries e → a.entries e' → e.stamp = e'.stamp → e = e'

theorem covers_start (file : String) : start.Covers { file } where
  live := by simp
  outline := by simp [Outline.entries]
  fallback := rfl
  initial := by simp [start]
  serial := by simp [start]
  parse e p i he hs := by
    rw [show e = Composite.fallback from he] at hs
    simp [Composite.fallback] at hs
  oneDoc := by simp [start]
  oneEntry e e' he he' _ := he.trans he'.symm

variable {o : Options} {a : Ledger} {c : Composite}

theorem Covers.reparse (h : a.Covers c) (hc : c.Consistent o) (text : String) :
    ∃ b : Ledger, a.Within b ∧ b.Covers (c.reparse o text) := by
  have origin : ∀ e, a.entries e ∨ e ∈ (Composite.next o text c).entries →
      a.entries e ∨
        ∃ i, e.stamp = .parsed c.parses i ∧ (o.parser text).blocks[i]? = some e.block := by
    rintro e (he | he)
    · exact .inl he
    · rcases hc.mem_entries_next he with he | rfl | he
      · exact .inr he
      · exact .inl h.fallback
      · exact .inl (h.outline e he)
  refine ⟨⟨a.docs, fun e => a.entries e ∨ e ∈ (Composite.next o text c).entries⟩,
    ⟨fun _ hd => hd, fun _ he => .inl he⟩, ?_⟩
  constructor
  case live => exact fun d hd => h.live d ((Composite.sublist_live_reparse text c).mem hd)
  case outline => exact fun e he => .inr (by rwa [Composite.outline_reparse] at he)
  case fallback => exact .inl h.fallback
  case initial => exact fun d hd => .inl (h.initial d hd)
  case serial => exact h.serial
  case oneDoc => exact h.oneDoc
  case parse =>
    intro e p i he hs
    have hparses : (c.reparse o text).parses = c.parses + 1 := rfl
    rw [hparses]
    rcases origin e he with he | ⟨j, hj, -⟩
    · have := h.parse e p i he hs
      omega
    · rw [hs, Stamp.parsed.injEq] at hj
      omega
  case oneEntry =>
    intro e e' he he' hs
    rcases origin e he with he | ⟨i, hi, hb⟩
    · rcases origin e' he' with he' | ⟨j, hj, -⟩
      · exact h.oneEntry e e' he he' hs
      · have := h.parse e _ _ he (hs.trans hj)
        omega
    · rcases origin e' he' with he' | ⟨j, hj, hb'⟩
      · have := h.parse e' _ _ he' (hs.symm.trans hi)
        omega
      · -- two blocks of the new parse with one stamp stand at one place
        have hij : i = j := by
          have := hi.symm.trans (hs.trans hj)
          simpa using this
        subst hij
        rw [hb, Option.some.injEq] at hb'
        obtain ⟨s, x⟩ := e
        obtain ⟨s', x'⟩ := e'
        simp_all

theorem Covers.refresh (h : a.Covers c) (hc : c.Consistent o) (text : String) :
    ∃ b : Ledger, a.Within b ∧ b.Covers (c.refresh o text) := by
  rcases Composite.refresh_cases o text c with ⟨-, hr⟩ | ⟨-, -, hr⟩ | ⟨-, -, hr⟩ <;> rw [hr]
  · exact ⟨a, .refl a, h⟩
  · exact ⟨a, .refl a, { h with }⟩
  · exact h.reparse hc text

theorem Covers.document (h : a.Covers c) (s : Slot) :
    ∃ b : Ledger, a.Within b ∧ b.Covers (c.document o s).2 := by
  cases hi : Composite.idIn o c.file c.outline s with
  | none =>
    rw [Composite.document_of_no_id hi]
    exact ⟨a, .refl a, h⟩
  | some i =>
    cases hf : c.live.find? (·.key = i.text) with
    | some d =>
      rw [Composite.document_of_find hi hf]
      exact ⟨a, .refl a, h⟩
    | none =>
      obtain ⟨b, hb, hd⟩ := Composite.document_of_not_find hi hf
      have hinit : a.entries b.initial := by
        obtain ⟨e, j, he, -, rfl⟩ := (Composite.anew_eq_some o).1 hb
        exact h.outline e (mem_entries_of_get? he)
      rw [hd]
      refine ⟨⟨fun d => a.docs d ∨ d = { b with serial := c.created }, a.entries⟩,
        ⟨fun _ hd => .inl hd, fun _ he => he⟩,
        { h with live := fun d hd => ?_, initial := fun d hd => ?_, serial := fun d hd => ?_,
                 oneDoc := fun d d' hd hd' hs => ?_ }⟩
      · rcases List.mem_append.1 hd with hd | hd
        · exact .inl (h.live d hd)
        · exact .inr (List.mem_singleton.1 hd)
      · rcases hd with hd | rfl
        · exact h.initial d hd
        · exact hinit
      · rcases hd with hd | rfl
        · exact Nat.lt_succ_of_lt (h.serial d hd)
        · exact Nat.lt_succ_self _
      · rcases hd with hd | rfl
        · rcases hd' with hd' | rfl
          · exact h.oneDoc d d' hd hd' hs
          · have := h.serial d hd
            simp only at hs
            omega
        · rcases hd' with hd' | rfl
          · have := h.serial d' hd'
            simp only at hs
            omega
          · rfl

/-- Every action leaves a ledger that covers the composite and forgets nothing. -/
theorem keeps_covers (o : Options) (a : Ledger) :
    Action.Keeps o fun d =>
      d.composite.Consistent o ∧ ∃ b : Ledger, a.Within b ∧ b.Covers d.composite := by
  have consistent := Document.keeps_consistent o
  refine ⟨fun d s h => ⟨consistent.edit d s h.1, ?_⟩, fun d h => ⟨consistent.markDirty d h.1, ?_⟩,
    fun d h => ⟨consistent.refresh d h.1, ?_⟩, fun d s h => ⟨consistent.document d s h.1, ?_⟩,
    fun d h => ⟨consistent.drain d h.1, ?_⟩⟩
  · obtain ⟨b, hw, hb⟩ := h.2
    exact ⟨b, hw, { hb with }⟩
  · obtain ⟨b, hw, hb⟩ := h.2
    exact ⟨b, hw, { hb with }⟩
  · obtain ⟨b, hw, hb⟩ := h.2
    obtain ⟨b', hw', hb'⟩ := hb.refresh h.1 d.source.text
    exact ⟨b', hw.trans hw', hb'⟩
  · obtain ⟨b, hw, hb⟩ := h.2
    obtain ⟨b', hw', hb'⟩ := hb.refresh h.1 d.source.text
    obtain ⟨b'', hw'', hb''⟩ := hb'.document (o := o) s
    exact ⟨b'', (hw.trans hw').trans hw'', hb''⟩
  · obtain ⟨b, hw, hb⟩ := h.2
    obtain ⟨b', hw', hb'⟩ := hb.refresh h.1 d.source.text
    exact ⟨b', hw.trans hw', { hb' with }⟩

end Ledger

end BlockLens
