import BlockLens.Proofs.Composite.LastGood
import BlockLens.Proofs.Markup.Cut

set_option autoImplicit false

namespace BlockLens

open Outline Composite

namespace Markup.Page

variable {p : Page} {o : Options} {s : Slot}

def Fills (p : Page) (s : Slot) : Prop :=
  (Outline.ofBlocks 0 (split p.text).blocks).1.get? s =
    some ⟨.parsed 0 p.before.length, p.block⟩

theorem blocks_text : ∃ bs, (split p.text).blocks = p.found ++ bs := by
  rw [split_text]
  exact ⟨[p.block] ++ _, List.append_assoc _ _ _⟩

theorem produced_text (hp : o.parser = split) (hs : p.Fills s) :
    produced o p.text s = some p.block := by
  rw [produced, hp, hs]
  rfl

theorem produced_cut (hp : o.parser = split) (hs : p.Fills s) {k : Nat}
    (hb : (split (p.cut k)).blocks = p.found) : produced o (p.cut k) s = none := by
  rw [produced, hp, hb, Option.map_eq_none_iff]
  cases he : (Outline.ofBlocks 0 p.found).1.get? s with
  | none => rfl
  | some e =>
    obtain ⟨bs, hbs⟩ := p.blocks_text
    obtain ⟨es, hes⟩ := ofBlocks_append 0 p.found bs
    have hwhole := get?_addAll he es
    rw [Fills, hbs, hes, hwhole, Option.some.injEq] at hs
    obtain ⟨i, hi, hfound⟩ := mem_entries_ofBlocks (mem_entries_of_get? he)
    rw [hs, Stamp.parsed.injEq] at hi
    have hlt := (List.getElem?_eq_some_iff.1 hfound).1
    rw [found, Passage.length_blocks] at hlt
    omega

theorem problemsOf_cut (hp : o.parser = split) (hgood : problemsOf o p.text = []) {k : Nat}
    (hb : (split (p.cut k)).blocks = p.found) :
    problemsOf o (p.cut k) = (split (p.cut k)).errors := by
  obtain ⟨bs, hbs⟩ := p.blocks_text
  obtain ⟨es, hes⟩ := ofBlocks_append 0 p.found bs
  rw [problemsOf, hp, hbs, hes, List.append_eq_nil_iff] at hgood
  have hfound : (Outline.ofBlocks 0 p.found).2 = [] := (List.append_eq_nil_iff.1 hgood.2).1
  rw [problemsOf, hp, hb, hfound, List.append_nil]

theorem lastGood_reported (hp : o.parser = split) (hs : p.Fills s) (hgood : problemsOf o p.text = [])
    {k : Nat} {e : ParseError} (hcut : split (p.cut k) = ⟨p.found, [e]⟩)
    (hand : handsOn s p.block = true) (older : List String) :
    lastGood o (p.cut k :: p.text :: older) s = some p.block := by
  have hfound : (split (p.cut k)).blocks = p.found := by rw [hcut]
  have hfaulty : problemsOf o (p.cut k) ≠ [] := by
    rw [problemsOf_cut hp hgood hfound, hcut]
    exact List.cons_ne_nil _ _
  have hlatest : latest o (p.cut k :: p.text :: older) s = some p.block := by
    rw [latest_faulty o hfaulty (List.cons_ne_nil _ _), latest_good o hgood, produced_text hp hs,
      produced_cut hp hs hfound, Option.filter_some, if_pos hand]
    rfl
  rw [lastGood, if_neg, hlatest]
  rintro ⟨rfl, hnone, -⟩
  rw [hlatest] at hnone
  contradiction

theorem lastGood_silent (hp : o.parser = split) (hs : p.Fills s) (hgood : problemsOf o p.text = [])
    {k : Nat} (hcut : split (p.cut k) = ⟨p.found, []⟩) (older : List String) :
    lastGood o (p.cut k :: p.text :: older) s =
      if s = .script ∧ produced o (p.cut k) .scriptSetup = none then some fallback.block else none := by
  have hfound : (split (p.cut k)).blocks = p.found := by rw [hcut]
  have hgood' : problemsOf o (p.cut k) = [] := by
    rw [problemsOf_cut hp hgood hfound, hcut]
  have hnone := produced_cut hp hs hfound
  simp only [lastGood, latest_good o hgood', hnone]
  by_cases hscript : s = .script
  · subst hscript
    simp [hnone]
  · simp [hscript]

theorem exists_fills (hp : o.parser = split) (hgood : problemsOf o p.text = []) :
    ∃ s, p.Fills s := by
  rw [problemsOf, hp, List.append_eq_nil_iff] at hgood
  refine exists_get?_addAll hgood.2 (List.mem_mapIdx.2 ?_)
  have hplace : (split p.text).blocks[p.before.length]? = some p.block := by
    rw [split_text, ← Passage.length_blocks 0]
    simp [Parsed.prepend, found]
  obtain ⟨hlt, hb⟩ := List.getElem?_eq_some_iff.1 hplace
  exact ⟨_, hlt, by rw [hb]⟩

/-- A text that breaks off in a block still has the blocks before it. Behind the open tag the break
is reported, and a document that showed the block keeps it. In the open tag what is left of the tag
counts as text: only what is wrong with that is reported, and where no sign is in it, the document
loses the block. -/
theorem kept_only_behind_tag (p : Page) {k : Nat} (hk : k < p.element.text.length) :
    ((split (p.cut k)).errors = [] ↔
        k < p.element.opening.length ∧ (split (p.torn k)).errors = []) ∧
      (p.element.opening.length ≤ k → split (p.cut k) = ⟨p.found, [p.missingEnd k]⟩) ∧
      (k < p.element.opening.length →
        split (p.cut k) = Parsed.prepend p.found ((split (p.torn k)).moved (p.offset + 1)) ∧
          ('<' ∉ (p.torn k).toList → split (p.cut k) = ⟨p.found, []⟩)) ∧
      ∀ (o : Options) (file text : String) (version : Int) (ms : List Move) (older : List String),
        o.parser = split → problemsOf o p.text = [] →
        ((Reader.ofText file text version).run ms).texts = p.cut k :: p.text :: older →
        let d := (Document.ofText file text version).run o ms
        (∃ s, p.Fills s) ∧ ∀ s, p.Fills s →
          (p.element.opening.length ≤ k → handsOn s p.block = true →
            (d.composite.outline.get? s).map (·.block) = some p.block) ∧
          (k < p.element.opening.length → '<' ∉ (p.torn k).toList →
            (d.composite.outline.get? s).map (·.block) =
              if s = .script ∧ produced o (p.cut k) .scriptSetup = none then some fallback.block
              else none) := by
  refine ⟨errors_cut hk, fun hle => split_cut_of_le hle hk, fun hlt => ⟨split_cut_of_lt hlt,
    split_cut_of_not_mem hlt⟩, ?_⟩
  intro o file text version ms older hp hgood hhist
  have htraced := (Document.traced_ofText o file text version).run ms
  refine ⟨exists_fills hp hgood, fun s hs => ?_⟩
  have hshows := htraced.shows (hhist ▸ List.cons_ne_nil _ _) s
  rw [hhist] at hshows
  refine ⟨fun hle hand => ?_, fun hlt hfree => ?_⟩
  · exact hshows.trans (lastGood_reported hp hs hgood (split_cut_of_le hle hk) hand older)
  · exact hshows.trans (lastGood_silent hp hs hgood (split_cut_of_not_mem hlt hfree) older)

/-- A script is kept when its end tag is missing, and lost when the end of its open tag is. -/
theorem kept_only_behind_tag_script :
    let o : Options := ⟨split, .empty, none⟩
    let shown := fun cut : String =>
      let ms : List Move := [.act .outline, .retext ⟨cut, 2⟩, .act .markDirty, .act .outline]
      let d := (Document.ofText "a.vue" "<script lang=\"ts\">let a</script>" 1).run o ms
      (d.composite.outline.get? .script).map (·.block)
    split "<script lang=\"ts" = {} ∧ shown "<script lang=\"ts" = some fallback.block ∧
      (shown "<script lang=\"ts\">let").map (·.content) = some "let a" := by
  intro o shown
  let e : Element :=
    { opening := "<script lang=\"ts\">".toList
      tag := ⟨"script", .ofList [("lang", "ts")], false⟩
      body := .raw "let a".toList
      reads := by decide +kernel
      proper := ⟨rfl, by decide, by decide⟩ }
  let p : Page := ⟨[], [], e, []⟩
  have htext : p.text = "<script lang=\"ts\">let a</script>" := by decide +kernel
  have hcut : p.cut 16 = "<script lang=\"ts" ∧ p.cut 21 = "<script lang=\"ts\">let" := by
    decide +kernel
  have hgood : problemsOf o p.text = [] := by decide +kernel
  have hfills : p.Fills .script := by
    unfold Fills
    decide +kernel
  have hhist : ∀ k ∈ [16, 21], ((Reader.ofText "a.vue" p.text 1).run
      [.act .outline, .retext ⟨p.cut k, 2⟩, .act .markDirty, .act .outline]).texts =
        [p.cut k, p.text] := by
    decide +kernel
  have hsetup : produced o (p.cut 16) .scriptSetup = none := by decide +kernel
  have hfree : '<' ∉ (p.torn 16).toList := by decide +kernel
  have hand : handsOn .script p.block = true := by decide +kernel
  have hcontent : (some p.block).map (·.content) = some "let a" := by decide +kernel
  obtain ⟨-, -, htag, hdoc⟩ := kept_only_behind_tag p (k := 16) (by decide)
  obtain ⟨-, -, -, hdoc'⟩ := kept_only_behind_tag p (k := 21) (by decide)
  have hsilent := (htag (by decide)).2 hfree
  have hlost := ((hdoc o _ _ _ _ _ rfl hgood (hhist 16 (by simp))).2 _ hfills).2 (by decide) hfree
  have hkept := ((hdoc' o _ _ _ _ _ rfl hgood (hhist 21 (by simp))).2 _ hfills).1 (by decide) hand
  rw [if_pos ⟨rfl, hsetup⟩, htext, hcut.1] at hlost
  rw [htext, hcut.2] at hkept
  rw [hcut.1] at hsilent
  exact ⟨hsilent, hlost, (congrArg (Option.map (·.content)) hkept).trans hcontent⟩

end Markup.Page

end BlockLens
