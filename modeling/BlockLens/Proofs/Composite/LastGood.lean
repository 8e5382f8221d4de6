import BlockLens.Markup.Blocks
import BlockLens.Proofs.Identifier
import BlockLens.Proofs.Workspace.Action
/-!
What is left of faulty parses. Over any run of a document, a slot shows the block that the latest
parse found for it, counted back to the last parse without a problem; a template or a script that
only stands in is shown by its own parse and not by later ones; and a document without any script
shows the synthesized one.
-/

set_option autoImplicit false

namespace BlockLens

open Outline

namespace Composite

variable (o : Options)

def produced (text : String) (s : Slot) : Option Block :=
  ((Outline.ofBlocks 0 (o.parser text).blocks).1.get? s).map (·.block)

/-- Of texts with the newest first, those back to the last one that has no problems, or else to the
first of all. -/
def sinceGood : List String → List String
  | [] => []
  | t :: ts => if (problemsOf o t).isEmpty then [t] else t :: sinceGood ts

def latest (ts : List String) (s : Slot) : Option Block :=
  match sinceGood o ts with
  | [] => none
  | t :: ts => (produced o t s).or ((ts.findSome? (produced o · s)).filter (handsOn s))

/-- What is shown in a slot: where the rule leaves both scripts empty, the synthesized one. -/
def lastGood (ts : List String) (s : Slot) : Option Block :=
  if s = .script ∧ latest o ts .script = none ∧ latest o ts .scriptSetup = none then
    some fallback.block
  else latest o ts s

theorem produced_eq (n : Nat) (text : String) (s : Slot) :
    ((Outline.ofBlocks n (o.parser text).blocks).1.get? s).map (·.block) = produced o text s :=
  map_block_get? (sameBlocks_ofBlocks n 0 _).1 s

theorem latest_good {t : String} (h : problemsOf o t = []) (ts : List String) (s : Slot) :
    latest o (t :: ts) s = produced o t s := by
  simp [latest, sinceGood, h]

theorem latest_one (t : String) (s : Slot) : latest o [t] s = produced o t s := by
  cases h : (problemsOf o t).isEmpty <;> simp [latest, sinceGood, h]

theorem filter_or_filter {α : Type} (p : α → Bool) (x y : Option α) :
    (x.or (y.filter p)).filter p = (x.or y).filter p := by
  cases x with
  | some a => simp
  | none => simp [Option.filter_filter]

/-- A faulty parse shows its own blocks over those shown before it. -/
theorem latest_faulty {t : String} (h : problemsOf o t ≠ []) {ts : List String} (hts : ts ≠ [])
    (s : Slot) :
    latest o (t :: ts) s = (produced o t s).or ((latest o ts s).filter (handsOn s)) := by
  have hb : (problemsOf o t).isEmpty = false := by simpa using h
  cases ts with
  | nil => contradiction
  | cons u us =>
    have hhead : ∃ r, sinceGood o (u :: us) = u :: r := by
      by_cases hu : (problemsOf o u).isEmpty = true
      · exact ⟨[], by simp [sinceGood, hu]⟩
      · exact ⟨sinceGood o us, by simp [sinceGood, hu]⟩
    obtain ⟨r, hr⟩ := hhead
    have ht : sinceGood o (t :: u :: us) = t :: u :: r := by rw [sinceGood, hb, hr]; rfl
    simp only [latest, ht, hr, List.findSome?_cons, filter_or_filter]
    cases produced o u s <;> rfl

theorem filter_lastGood (ts : List String) (s : Slot) :
    (lastGood o ts s).filter (handsOn s) = (latest o ts s).filter (handsOn s) := by
  unfold lastGood
  split
  · next h =>
    obtain ⟨rfl, hn, -⟩ := h
    rw [hn]
    rfl
  · rfl

def Shows (ts : List String) (d : Outline) : Prop :=
  ∀ s, (d.get? s).map (·.block) = lastGood o ts s

variable {o}

theorem shows_scripted {ts : List String} {d : Outline}
    (h : ∀ s, (d.get? s).map (·.block) = latest o ts s) : Shows o ts (scripted d) := by
  intro s
  have hs : d.hasScript = false ↔ latest o ts .script = none ∧ latest o ts .scriptSetup = none := by
    rw [← h .script, ← h .scriptSetup]
    simp [hasScript, get?]
  simp only [get?_scripted, lastGood, ← hs]
  split
  · rfl
  · exact h s

theorem Shows.adopt {ts : List String} {prev d : Outline} (hp : prev.Kinded) (hd : d.Kinded)
    (h : Shows o ts d) : Shows o ts (prev.adopt d) := by
  intro s
  rw [map_block_get? (sameBlocks_adopt hp hd)]
  exact h s

theorem map_block_carryOver {prev d : Outline} (s : Slot) :
    ((prev.carryOver d).get? s).map (·.block) =
      ((d.get? s).map (·.block)).or (((prev.get? s).map (·.block)).filter (handsOn s)) := by
  rw [get?_carryOver]
  cases d.get? s with
  | some e => rfl
  | none =>
    cases prev.get? s with
    | none => rfl
    | some p => cases h : handsOn s p.block <;> simp [Option.filter, h]

/-- What a parse makes of what was shown is what the rule says of one text more. -/
theorem Consistent.shows_next {c : Composite} (h : Consistent o c) {ts : List String}
    (hts : c.parsed = ts.head?) (hs : ts ≠ [] → Shows o ts c.outline) (text : String) :
    Shows o (text :: ts) (next o text c) := by
  have hfresh : ∀ s, ((Outline.ofBlocks c.parses (o.parser text).blocks).1.get? s).map (·.block) =
      produced o text s := produced_eq o c.parses text
  cases ts with
  | nil =>
    rw [List.head?_nil] at hts
    rw [next, hts, Option.isSome_none, if_neg Bool.false_ne_true, merge_none]
    refine shows_scripted fun s => ?_
    rw [hfresh, latest_one]
  | cons t ts =>
    rw [List.head?_cons] at hts
    have hprev := hs (List.cons_ne_nil _ _)
    rw [next, hts, Option.isSome_some, if_pos rfl, merge_some]
    have hk := kinded_ofBlocks c.parses (o.parser text).blocks
    by_cases hp : problemsOf o text = []
    · rw [hp, List.isEmpty_nil, Bool.not_true, if_neg Bool.false_ne_true]
      refine Shows.adopt h.kinded (kinded_scripted hk) (shows_scripted fun s => ?_)
      rw [hfresh, latest_good o hp]
    · have hb : (!(problemsOf o text).isEmpty) = true := by simpa using hp
      rw [hb, if_pos rfl]
      refine Shows.adopt h.kinded (kinded_scripted (h.kinded.carryOver hk)) (shows_scripted fun s => ?_)
      rw [map_block_carryOver, hfresh, hprev s, filter_lastGood,
        latest_faulty o hp (List.cons_ne_nil _ _)]

theorem hasScript_of_shows {ts : List String} {d : Outline} (h : Shows o ts d) :
    d.hasScript = true := by
  have hs := h .script
  have hss := h .scriptSetup
  cases hd : d.hasScript with
  | true => rfl
  | false =>
    simp only [hasScript, Bool.or_eq_false_iff, Option.isSome_eq_false_iff,
      Option.isNone_iff_eq_none] at hd
    have hsetup : latest o ts .scriptSetup = none := by
      rw [get?, hd.2] at hss
      simpa [lastGood] using hss.symm
    rw [get?, hd.1, lastGood] at hs
    split at hs
    · simp at hs
    · next hn => exact absurd ⟨rfl, hs.symm, hsetup⟩ hn

end Composite

/-- What can happen to a document: something is done to it, or another holder of its text puts a
text in the place of the present one. -/
inductive Move where
  | act (a : Action)
  | retext (s : Source)

/-- Follows a document without its parses: by the text, the marks and the readings alone. -/
structure Reader where
  file : String
  source : Source
  marked : Bool := true
  /-- What the readings found, the newest first. -/
  texts : List String := []

namespace Reader

def ofText (file text : String) (version : Int) : Reader := { file, source := ⟨text, version⟩ }

/-- Looks at the text if it was marked, and notes it unless it is the one noted last. -/
def read (r : Reader) : Reader :=
  if r.marked then
    { r with
      marked := false
      texts := if r.texts.head? = some r.source.text then r.texts else r.source.text :: r.texts }
  else r

def move (r : Reader) : Move → Reader
  | .retext s => { r with source := s }
  | .act (.update changes version) =>
    match r.source.edit changes version with
    | .ok s => { r with source := s, marked := true }
    | .error _ => r
  | .act .markDirty => { r with marked := true }
  -- a name that is none of a block of this file is refused before anything is read
  | .act (.documentById id) =>
    if (Identifier.parse id).toOption.any (·.file = r.file) then r.read else r
  | .act _ => r.read

def run (r : Reader) (ms : List Move) : Reader := ms.foldl move r

theorem read_of_not_marked {r : Reader} (h : r.marked = false) : r.read = r := by
  simp [read, h]

theorem read_same {r : Reader} (h : r.marked = true) (ht : r.texts.head? = some r.source.text) :
    r.read = { r with marked := false } := by
  simp [read, h, ht]

theorem read_new {r : Reader} (h : r.marked = true) (ht : r.texts.head? ≠ some r.source.text) :
    r.read = { r with marked := false, texts := r.source.text :: r.texts } := by
  simp [read, h, ht]

theorem read_read (r : Reader) : r.read.read = r.read := by
  cases h : r.marked <;> simp [read, h]

end Reader

structure Composite.Agrees (c c' : Composite) : Prop where
  file : c'.file = c.file
  dirty : c'.dirty = c.dirty
  outline : c'.outline = c.outline
  parsed : c'.parsed = c.parsed
  parses : c'.parses = c.parses

namespace Document

variable (o : Options)

def move (d : Document) : Move → Document
  | .act a => (a.run o d).2
  | .retext s => { d with source := s }

def run (d : Document) (ms : List Move) : Document := ms.foldl (move o) d

variable {o}

theorem agrees_blockDocument (s : Slot) (d : Document) :
    (d.refresh o).composite.Agrees (d.blockDocument o s).2.composite := by
  obtain ⟨live, created, hd⟩ := blockDocument_eq (o := o) s d
  rw [hd]
  exact ⟨rfl, rfl, rfl, rfl, rfl⟩

theorem refresh_refresh (d : Document) : (d.refresh o).refresh o = d.refresh o := by
  exact refresh_of_clean (Composite.dirty_refresh _ _)

/-- The document is where its reader is, parsed the texts noted, and shows what the rule says of
them. -/
structure Traced (o : Options) (r : Reader) (d : Document) : Prop where
  file : d.composite.file = r.file
  source : d.source = r.source
  dirty : d.composite.dirty = r.marked
  consistent : d.composite.Consistent o
  parses : d.composite.parses = r.texts.length
  parsed : d.composite.parsed = r.texts.head?
  distinct : ∀ l t ts, r.texts ≠ l ++ t :: t :: ts
  shows : r.texts ≠ [] → Composite.Shows o r.texts d.composite.outline

namespace Traced

variable {r : Reader} {d : Document}

theorem of_agrees {e : Document} (h : Traced o r d) (ha : d.composite.Agrees e.composite)
    (hs : e.source = d.source) (hc : e.composite.Consistent o) : Traced o r e where
  file := ha.file.trans h.file
  source := hs.trans h.source
  dirty := ha.dirty.trans h.dirty
  consistent := hc
  parses := ha.parses.trans h.parses
  parsed := ha.parsed.trans h.parsed
  distinct := h.distinct
  shows := ha.outline ▸ h.shows

theorem retext (h : Traced o r d) (s : Source) :
    Traced o { r with source := s } { d with source := s } :=
  { h with source := rfl }

theorem markDirty (h : Traced o r d) : Traced o { r with marked := true } d.markDirty :=
  { h with dirty := rfl, consistent := h.consistent.markDirty }

theorem refresh (h : Traced o r d) : Traced o r.read (d.refresh o) := by
  have hc := h.consistent.refresh d.source.text
  unfold Document.refresh
  rcases Composite.refresh_cases o d.source.text d.composite with
    ⟨hd, hr⟩ | ⟨hd, hp, hr⟩ | ⟨hd, hp, hr⟩ <;> rw [hr] at hc ⊢
  all_goals rw [h.dirty] at hd
  · rw [Reader.read_of_not_marked hd]
    exact h
  · rw [Reader.read_same hd (by rw [← h.parsed, hp, h.source])]
    exact { h with dirty := rfl, consistent := hc }
  · rw [Reader.read_new hd (by rwa [← h.parsed, ← h.source]), ← h.source]
    refine ⟨h.file, rfl, rfl, hc, ?_, rfl, ?_, fun _ => ?_⟩
    · rw [List.length_cons, ← h.parses]
      rfl
    · intro l t ts he
      cases l with
      | nil =>
        rw [List.nil_append, List.cons.injEq] at he
        exact hp (by rw [h.parsed, he.2, List.head?_cons, he.1])
      | cons a l =>
        rw [List.cons_append, List.cons.injEq] at he
        exact h.distinct l t ts he.2
    · rw [Composite.outline_reparse]
      exact h.consistent.shows_next h.parsed h.shows d.source.text

theorem blockDocument (h : Traced o r d) (s : Slot) : Traced o r.read (d.blockDocument o s).2 :=
  h.refresh.of_agrees (agrees_blockDocument s d) rfl ((keeps_consistent o).document d s h.consistent)

theorem documentAt (h : Traced o r d) (offset : Nat) :
    Traced o r.read (d.documentAt o offset).2 := by
  simp only [Document.documentAt]
  split
  · next s _ _ =>
    rw [← r.read_read]
    exact h.refresh.blockDocument s
  · exact h.refresh

theorem documentById (h : Traced o r d) (id : String) :
    Traced o (r.move (.act (.documentById id))) (d.documentById o id).2 := by
  simp only [Reader.move, Document.documentById, h.file]
  cases hp : Identifier.parse id with
  | error e =>
    simp only [Except.toOption, Option.any_none, Bool.false_eq_true, if_false]
    split <;> exact h
  | ok i =>
    obtain ⟨s, hs⟩ := Option.isSome_iff_exists.1
      (Identifier.isSome_slot?_of_validate (Identifier.parse_eq_ok hp).1)
    rw [Identifier.compositeOf?_of_parse hp]
    by_cases hf : i.file = r.file
    · simpa [hf, hs, Except.toOption] using h.blockDocument s
    · simpa [hf, Except.toOption] using h

theorem move (h : Traced o r d) (m : Move) : Traced o (r.move m) (d.move o m) := by
  cases m with
  | retext s => exact h.retext s
  | act a =>
    cases a with
    | update changes version =>
      simp only [Reader.move, Document.move, Action.run, update, h.source]
      cases r.source.edit changes version with
      | ok s => exact (h.retext s).markDirty
      | error e => exact h
    | markDirty => exact h.markDirty
    | outline | mainModule | hasDocument key => exact h.refresh
    | drainEvicted =>
      exact h.refresh.of_agrees ⟨rfl, rfl, rfl, rfl, rfl⟩ rfl ((keeps_consistent o).drain d h.consistent)
    | document s => exact h.blockDocument s
    | documentAt offset => exact h.documentAt offset
    | documentById id => exact h.documentById id

theorem run (h : Traced o r d) (ms : List Move) : Traced o (r.run ms) (d.run o ms) := by
  induction ms generalizing r d with
  | nil => exact h
  | cons m ms ih => exact ih (h.move m)

end Traced

theorem traced_ofText (o : Options) (file text : String) (version : Int) :
    Traced o (.ofText file text version) (ofText file text version) where
  file := rfl
  source := rfl
  dirty := rfl
  consistent := Composite.consistent_new o file
  parses := rfl
  parsed := rfl
  distinct := by simp [Reader.ofText]
  shows := by simp [Reader.ofText]

/-- After any run, a document has parsed the texts that a reader of its file noted, no others and
in their order. Its slots show what the rule says of them, and there is a script as soon as there
was a parse. -/
theorem outline_run_eq_lastGood (o : Options) (file text : String) (version : Int)
    (ms : List Move) :
    let d := (ofText file text version).run o ms
    let r := (Reader.ofText file text version).run ms
    d.source = r.source ∧ d.composite.dirty = r.marked ∧
      d.composite.parses = r.texts.length ∧ d.composite.parsed = r.texts.head? ∧
      (∀ l t ts, r.texts ≠ l ++ t :: t :: ts) ∧
      (r.texts ≠ [] →
        (∀ s, (d.composite.outline.get? s).map (·.block) = Composite.lastGood o r.texts s) ∧
          d.composite.outline.hasScript = true) := by
  have h := (traced_ofText o file text version).run ms
  exact ⟨h.source, h.dirty, h.parses, h.parsed, h.distinct,
    fun hne => ⟨h.shows hne, Composite.hasScript_of_shows (h.shows hne)⟩⟩

/-- Of an edit, an edit that is refused, a name of another file and a mark without an edit, the
first alone leads to a parse. It finds a style and an end tag missing, and the script stays. -/
theorem outline_run_eq_lastGood_refused :
    let o : Options := ⟨Markup.split, .empty, none⟩
    let good := "<script>a</script>"
    let bad := "<style>b</style><template>"
    let ms : List Move :=
      [.act .outline, .act (.update [⟨none, bad⟩] 2), .act (.update [⟨none, good⟩] 2),
        .act (.documentById "b.vue?vue&type=script&lang.js"), .act (.document .script),
        .act .markDirty, .act .mainModule]
    let d := (ofText "a.vue" good 1).run o ms
    let shown := fun s => (d.composite.outline.get? s).map (·.block.content)
    ((Reader.ofText "a.vue" good 1).run ms).texts = [bad, good] ∧
      d.source = ⟨bad, 2⟩ ∧ d.composite.parses = 2 ∧
      shown .script = some "a" ∧ shown (.style 0) = some "b" ∧ shown .template = none := by
  intro o good bad ms d shown
  have htexts : ((Reader.ofText "a.vue" good 1).run ms).texts = [bad, good] := by decide +kernel
  have hsource : ((Reader.ofText "a.vue" good 1).run ms).source = ⟨bad, 2⟩ := by decide +kernel
  obtain ⟨hs, -, hparses, -, -, hshows⟩ := outline_run_eq_lastGood o "a.vue" good 1 ms
  rw [htexts] at hparses hshows
  have hshown (s : Slot) :
      shown s = (Composite.lastGood o [bad, good] s).map (·.content) := by
    rw [← (hshows (List.cons_ne_nil _ _)).1 s, Option.map_map]
    rfl
  refine ⟨htexts, hs.trans hsource, hparses, ?_⟩
  rw [hshown, hshown, hshown]
  decide +kernel

end Document

end BlockLens
