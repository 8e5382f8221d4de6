import BlockLens.Proofs.Composite.LastGood
import BlockLens.Proofs.Workspace.Incremental
/-!
Which block documents a parse gives up. A style or custom block stands for itself; the template and
the setup script go together, and with the name of the script; the script goes with them, and also
when it alone changed. A document is given up exactly if this rule says so of its slot, and its name
is then logged once.
-/

set_option autoImplicit false

namespace BlockLens

open Outline

def Block.Differs : Option Block → Option Block → Prop
  | none, none => False
  | some a, some b => a.content ≠ b.content ∨ a.lang ≠ b.lang ∨ a.span ≠ b.span ∨ a.attrs ≠ b.attrs
  | some _, none | none, some _ => True

instance : (a b : Option Block) → Decidable (Block.Differs a b)
  | none, none => inferInstanceAs (Decidable False)
  | some _, some _ => inferInstanceAs (Decidable (_ ∨ _))
  | some _, none | none, some _ => inferInstanceAs (Decidable True)

theorem Block.not_differs_self (a : Option Block) : ¬ Block.Differs a a := by
  cases a <;> simp [Differs]

theorem changed_eq_true {a b : Option Entry} :
    changed a b = true ↔ Block.Differs (a.map (·.block)) (b.map (·.block)) := by
  cases a with
  | none => cases b <;> simp [changed, Block.Differs]
  | some x =>
    cases b with
    | none => simp [changed, Block.Differs]
    | some y =>
      simp only [changed, Block.Differs, Option.map_some, Block.sameAs, Bool.not_eq_true',
        Bool.and_eq_false_iff, decide_eq_false_iff_not, or_assoc, ne_eq]

namespace Composite

variable (o : Options)

def Differs (prev next : Outline) (s : Slot) : Prop :=
  Block.Differs ((prev.get? s).map (·.block)) ((next.get? s).map (·.block))

def Uncouples (file : String) (prev next : Outline) : Prop :=
  Differs prev next .template ∨ Differs prev next .scriptSetup ∨
    idIn o file prev .script ≠ idIn o file next .script

/-- What was made for the slot is out of date. -/
def GoesStale (file : String) (prev next : Outline) : Slot → Prop
  | .template | .scriptSetup => Uncouples o file prev next
  | .script => Uncouples o file prev next ∨ Differs prev next .script
  | .style i => Differs prev next (.style i)
  | .custom name i => Differs prev next (.custom name i)

instance (prev next : Outline) (s : Slot) : Decidable (Differs prev next s) :=
  inferInstanceAs (Decidable (Block.Differs _ _))

instance (file : String) (prev next : Outline) : Decidable (Uncouples o file prev next) :=
  inferInstanceAs (Decidable (_ ∨ _))

instance (file : String) (prev next : Outline) : (s : Slot) → Decidable (GoesStale o file prev next s)
  | .template | .scriptSetup => inferInstanceAs (Decidable (Uncouples ..))
  | .script => inferInstanceAs (Decidable (_ ∨ _))
  | .style _ | .custom _ _ => inferInstanceAs (Decidable (Differs ..))

theorem not_goesStale_of_sameBlocks {file : String} {prev next : Outline}
    (h : prev.sameBlocks next = true) (s : Slot) : ¬ GoesStale o file prev next s := by
  have same : ∀ t, ¬ Differs prev next t := by
    intro t
    rw [Differs, map_block_get? h t]
    exact Block.not_differs_self _
  have hid : idIn o file prev .script = idIn o file next .script := idIn_congr o (map_block_get? h _)
  cases s <;> simp [GoesStale, Uncouples, same, hid]

theorem changed_of_idIn_ne {file : String} {prev next : Outline} (hp : prev.Kinded) (hn : next.Kinded)
    {s : Slot} (h : idIn o file prev s ≠ idIn o file next s) :
    changed (prev.get? s) (next.get? s) = true := by
  cases hc : changed (prev.get? s) (next.get? s) with
  | true => rfl
  | false => exact absurd (idIn_congr o (map_block_of_not_changed hp hn hc)) h

theorem coupled_eq_decide {file : String} {prev next : Outline} (hp : prev.Kinded)
    (hn : next.Kinded) :
    (changed (prev.get? .template) (next.get? .template) ||
      changed (prev.get? .scriptSetup) (next.get? .scriptSetup) ||
      (changed (prev.get? .script) (next.get? .script) &&
        idIn o file prev .script != idIn o file next .script)) =
      decide (Uncouples o file prev next) := by
  have hid : idIn o file prev .script ≠ idIn o file next .script →
      changed (prev.get? .script) (next.get? .script) = true := changed_of_idIn_ne o hp hn
  rw [Bool.eq_iff_iff, decide_eq_true_eq]
  simp only [Bool.or_eq_true, Bool.and_eq_true, bne_iff_ne, changed_eq_true, Uncouples, Differs]
    at hid ⊢
  grind

/-- The slots that are listed as stale are the filled ones of which the rule says so. -/
theorem mem_staleSlots_iff {file : String} {prev next : Outline} (hp : prev.Kinded) (hn : next.Kinded)
    {s : Slot} :
    s ∈ staleSlots o file prev next ↔
      (prev.get? s).isSome = true ∧ GoesStale o file prev next s := by
  constructor
  · intro h
    simp only [staleSlots, coupled_eq_decide o hp hn] at h
    obtain ⟨h, hs⟩ := List.mem_filter.1 h
    refine ⟨hs, ?_⟩
    rcases List.mem_append.1 h with h | h
    · cases s <;> simp [GoesStale, changed_eq_true] at h ⊢ <;> exact h
    · -- among the styles and custom blocks each slot stands for itself
      obtain ⟨hm, hd⟩ := List.mem_filter.1 h
      have hself : GoesStale o file prev next s = Differs prev next s := by
        rcases List.mem_append.1 hm with hm | hm
        · obtain ⟨i, -, rfl⟩ := List.mem_map.1 hm
          rfl
        · obtain ⟨⟨t, e⟩, ht, rfl⟩ := List.mem_map.1 (List.mem_mergeSort.1 hm)
          obtain ⟨name, i, rfl, -⟩ := mem_customSlots.1 ht
          rfl
      rw [hself]
      exact changed_eq_true.1 hd
  · rintro ⟨hs, h⟩
    cases s with
    | style i => exact mem_staleSlots o hs (changed_eq_true.2 h)
    | custom name i => exact mem_staleSlots o hs (changed_eq_true.2 h)
    | template | scriptSetup =>
      have hu : Uncouples o file prev next := h
      simp [staleSlots, coupled_eq_decide o hp hn, hs, hu]
    | script =>
      rcases h with hu | hd
      · simp only [staleSlots, coupled_eq_decide o hp hn, hs, hu, List.mem_filter, and_true]
        simp
      · exact mem_staleSlots o hs (changed_eq_true.2 hd)

theorem evict_fst (ks : List String) (live : List BlockDocument) :
    (evict ks live).1 = live.filter fun d => d.key ∉ ks := by
  induction ks generalizing live with
  | nil => exact (List.filter_eq_self.2 (by simp)).symm
  | cons k ks ih =>
    simp only [evict]
    split
    · rw [ih, List.filter_filter]
      refine List.filter_congr fun d _ => ?_
      simp [Bool.and_comm]
    · next hk =>
      rw [ih]
      refine List.filter_congr fun d hd => ?_
      have hne : d.key ≠ k := by
        intro he
        exact hk (List.any_eq_true.2 ⟨d, hd, by simpa using he⟩)
      simp [hne]

theorem nodup_evicted (ks : List String) (live : List BlockDocument) : (evict ks live).2.Nodup := by
  induction ks generalizing live with
  | nil => simp [evict]
  | cons k ks ih =>
    simp only [evict]
    split
    · refine List.nodup_cons.2 ⟨fun hm => ?_, ih _⟩
      obtain ⟨-, d, hd, hk⟩ := mem_evicted.1 hm
      simp [hk] at hd
    · exact ih live

variable {o}

/-- The name of a live document is given up exactly if its slot went stale. -/
theorem Consistent.key_mem_staleKeys {c : Composite} (h : Consistent o c)
    (ht : ∀ e ∈ c.outline.entries, e.block.kind.IsTag) (text : String) {d : BlockDocument}
    (hd : d ∈ c.live) :
    d.key ∈ staleKeys o text c ↔ GoesStale o c.file c.outline (next o text c) d.slot := by
  have hid := h.idIn_of_live hd
  have hfilled : (c.outline.get? d.slot).isSome = true := by
    obtain ⟨e, he⟩ := isSome_get?_of_idIn o hid
    simp [he]
  have hstale : d.slot ∈ staleSlots o c.file c.outline (next o text c) ↔ _ :=
    mem_staleSlots_iff o h.kinded (h.kinded_next text)
  rw [staleKeys, List.mem_filterMap]
  constructor
  · rintro ⟨s, hs, hkey⟩
    obtain ⟨i, hi, htext⟩ := Option.map_eq_some_iff.1 hkey
    have heq := h.slot_eq ht hi hid htext
    exact (hstale.1 (heq ▸ hs)).2
  · intro hg
    exact ⟨d.slot, hstale.2 ⟨hfilled, hg⟩, by rw [hid]; rfl⟩

theorem evicted_reparse {text : String} {c : Composite} (h : c.parsed.isSome = true) :
    (reparse o text c).evicted = c.evicted ++ (evict (staleKeys o text c) c.live).2 := by
  have hn := outline_reparse o text c
  simp only [reparse, h, if_true] at hn ⊢
  simp only [staleKeys, hn]

structure GivesUp (o : Options) (before after : Composite) (gone : List String) : Prop where
  log : after.evicted = before.evicted ++ gone
  once : gone.Nodup
  known : ∀ k ∈ gone, ∃ b ∈ before.live, b.key = k
  due : ∀ b ∈ before.live,
    (b.key ∈ gone ↔ GoesStale o before.file before.outline after.outline b.slot)
  live : after.live =
    before.live.filter fun b => ¬ GoesStale o before.file before.outline after.outline b.slot

theorem givesUp_nothing {before after : Composite}
    (hout : before.outline.sameBlocks after.outline = true) (hlog : after.evicted = before.evicted)
    (hlive : after.live = before.live) : GivesUp o before after [] where
  log := by rw [hlog, List.append_nil]
  once := List.nodup_nil
  known := by simp
  due b _ := by simp [not_goesStale_of_sameBlocks o hout]
  live := by
    rw [hlive]
    exact (List.filter_eq_self.2 fun b _ => by simp [not_goesStale_of_sameBlocks o hout]).symm

theorem Consistent.givesUp_reparse {c : Composite} (h : Consistent o c)
    (ht : ∀ e ∈ c.outline.entries, e.block.kind.IsTag) (text : String)
    (hp : c.parsed.isSome = true) :
    GivesUp o c (Composite.reparse o text c) (evict (staleKeys o text c) c.live).2 where
  log := evicted_reparse hp
  once := nodup_evicted _ _
  known k hk := (mem_evicted.1 hk).2
  due b hb := by
    rw [outline_reparse, ← h.key_mem_staleKeys ht text hb, mem_evicted]
    exact and_iff_left ⟨b, hb, rfl⟩
  live := by
    rw [live_reparse hp, evict_fst, outline_reparse]
    refine List.filter_congr fun b hb => ?_
    simp only [h.key_mem_staleKeys ht text hb]

theorem Consistent.givesUp_refresh {c : Composite} (h : Consistent o c)
    (ht : ∀ e ∈ c.outline.entries, e.block.kind.IsTag) (text : String) :
    ∃ gone, GivesUp o c (Composite.refresh o text c) gone := by
  have same : c.outline.sameBlocks c.outline = true := by simp [sameBlocks]
  rcases refresh_cases o text c with ⟨-, hr⟩ | ⟨-, -, hr⟩ | ⟨-, -, hr⟩ <;> rw [hr]
  · exact ⟨[], givesUp_nothing same rfl rfl⟩
  · exact ⟨[], givesUp_nothing same rfl rfl⟩
  · cases hp : c.parsed with
    | some t => exact ⟨_, h.givesUp_reparse ht text (by simp [hp])⟩
    | none =>
      -- before the first parse there is no document that could be given up
      have hlive := (h.unparsed hp).2
      refine ⟨[], ?_, List.nodup_nil, by simp, by simp [hlive], ?_⟩
      · simp [Composite.reparse, hp, evict]
      · simp [Composite.reparse, hp, hlive, evict]

end Composite

theorem Action.Keeps.moves {o : Options} {P : Document → Prop} (k : Action.Keeps o P)
    (hs : ∀ (d : Document) (s : Source), P d → P { d with source := s }) {d : Document} (h : P d)
    (ms : List Move) : P (d.run o ms) := by
  induction ms generalizing d with
  | nil => exact h
  | cons m ms ih =>
    cases m with
    | act a => exact ih (k.run a h)
    | retext s => exact ih (hs d s h)

namespace Document

/-- After any run, when the document is next brought up to date: the documents whose slots went
stale are given up, the name of each is logged once, and all others stay, in their order. -/
theorem evicted_refresh_iff_goesStale {o : Options}
    (hp : ∀ t, ∀ b ∈ (o.parser t).blocks, ∃ tag, b.kind = .ofTag tag) (file text : String)
    (version : Int) (ms : List Move) :
    let before := ((ofText file text version).run o ms).composite
    let after := (((ofText file text version).run o ms).refresh o).composite
    let stale := Composite.GoesStale o file before.outline after.outline
    ∃ gone : List String, after.evicted = before.evicted ++ gone ∧
      (∀ b ∈ before.live, gone.count b.key = if stale b.slot then 1 else 0) ∧
      (∀ k ∈ gone, ∃ b ∈ before.live, b.key = k) ∧
      after.live = before.live.filter (fun b => ¬ stale b.slot) ∧
      (before.outline.sameBlocks after.outline = true → gone = [] ∧ after.live = before.live) := by
  have hp' : ∀ t, ∀ b ∈ (o.parser t).blocks, b.kind.IsTag := by
    intro t b hb
    obtain ⟨tag, htag⟩ := hp t b hb
    exact htag ▸ Kind.isTag_ofTag tag
  obtain ⟨hfile, hc, ht⟩ := (keeps_regular hp' file).moves (fun _ _ h => h)
    (regular_ofText o file text version) ms
  intro before after stale
  obtain ⟨gone, hg⟩ := hc.givesUp_refresh ht ((ofText file text version).run o ms).source.text
  have hdue : ∀ b ∈ before.live, (b.key ∈ gone ↔ stale b.slot) := by
    have h := hg.due
    rwa [hfile] at h
  have hlive : after.live = before.live.filter fun b => ¬ stale b.slot := by
    have h := hg.live
    simp only [hfile] at h
    exact h
  refine ⟨gone, hg.log, fun b hb => ?_, hg.known, hlive, fun hsame => ?_⟩
  · rw [hg.once.count]
    simp only [hdue b hb]
  · have hnone : ∀ s, ¬ stale s := Composite.not_goesStale_of_sameBlocks o hsame
    refine ⟨List.eq_nil_iff_forall_not_mem.2 fun k hk => ?_, ?_⟩
    · obtain ⟨b, hb, rfl⟩ := hg.known k hk
      exact hnone _ ((hdue b hb).1 hk)
    · rw [hlive]
      exact List.filter_eq_self.2 fun b _ => by simp [hnone]

theorem evicted_refresh_iff_goesStale_style :
    let o : Options := ⟨fun t => { blocks := [
      { kind := .script, attrs := .ofList [], span := ⟨8, 9⟩, content := "a" },
      { kind := .style, attrs := .ofList [], span := ⟨20, 21⟩, content := t }] }, .empty, none⟩
    let d := (ofText "a.vue" "x" 1).run o
      [.act (.document .script), .act (.document (.style 0)), .act (.update [⟨none, "y"⟩] 2)]
    (∀ t, ∀ b ∈ (o.parser t).blocks, ∃ tag, b.kind = .ofTag tag) ∧
      d.composite.live.map (·.slot) = [.script, .style 0] ∧
      (d.refresh o).composite.live.map (·.slot) = [.script] ∧
      ∃ gone, (d.refresh o).composite.evicted = d.composite.evicted ++ gone ∧
        ∀ b ∈ d.composite.live, gone.count b.key = if b.slot = .style 0 then 1 else 0 := by
  intro o d
  have hp : ∀ t, ∀ b ∈ (o.parser t).blocks, ∃ tag, b.kind = .ofTag tag := by
    intro t b hb
    simp only [o, List.mem_cons, List.not_mem_nil, or_false] at hb
    rcases hb with rfl | rfl
    · exact ⟨"script", rfl⟩
    · exact ⟨"style", rfl⟩
  obtain ⟨gone, hlog, hcount, -, hlive, -⟩ := evicted_refresh_iff_goesStale hp "a.vue" "x" 1
    [.act (.document .script), .act (.document (.style 0)), .act (.update [⟨none, "y"⟩] 2)]
  have hslots : d.composite.live.map (·.slot) = [.script, .style 0] := by decide +kernel
  have hstale : ∀ s ∈ [Slot.script, .style 0],
      (Composite.GoesStale o "a.vue" d.composite.outline (d.refresh o).composite.outline s ↔
        s = .style 0) := by decide +kernel
  refine ⟨hp, hslots, ?_, gone, hlog, fun b hb => ?_⟩
  · rw [hlive]
    decide +kernel
  · have hs := hstale b.slot (hslots ▸ List.mem_map_of_mem hb)
    exact (hcount b hb).trans (ite_congr (propext hs) (fun _ => rfl) fun _ => rfl)

end Document

end BlockLens
