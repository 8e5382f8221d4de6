import Mathlib.Data.List.Nodup
import BlockLens.Proofs.Composite.Eviction
/-!
The block documents of a composite from their making to their end. Every document that was ever
made is live or its name was logged, once for each; asked for again, a slot gives the document it
gave before unless the name of that document was logged in between; and a live document still shows
the very block it was made from.
-/

set_option autoImplicit false

namespace BlockLens

open Outline

namespace Composite

variable {o : Options}

/-- A slot that did not change has the same object as before, and not only an equal one. -/
theorem get?_next_of_not_changed {c : Composite} (h : Consistent o c) (hp : c.parsed.isSome = true)
    {text : String} {s : Slot} (hc : changed (c.outline.get? s) ((next o text c).get? s) = false) :
    (next o text c).get? s = c.outline.get? s := by
  rw [next, hp, if_pos rfl, merge_some, get?_adopt h.kinded] at hc ⊢
  cases hx : (scripted (if (!(problemsOf o text).isEmpty) = true then
      c.outline.carryOver (Outline.ofBlocks c.parses (o.parser text).blocks).1
    else (Outline.ofBlocks c.parses (o.parser text).blocks).1)).get? s with
  | none =>
    rw [hx, Option.map_none] at hc
    cases he : c.outline.get? s with
    | none => rfl
    | some e => simp [he, changed] at hc
  | some x =>
    rw [hx, Option.map_some] at hc
    cases he : c.outline.get? s with
    | none => simp [he, changed] at hc
    | some e =>
      by_cases hsame : e.block.sameAs x.block = true
      · simp [Entry.adopt, hsame]
      · simp [he, Entry.adopt, changed, hsame] at hc

/-- Every live document is of the object that stands in its slot. -/
def Original (c : Composite) : Prop := ∀ b ∈ c.live, c.outline.get? b.slot = some b.initial

theorem Original.reparse {c : Composite} (h : c.Original) (hc : Consistent o c) (text : String) :
    (c.reparse o text).Original := by
  intro b hb
  have hlive := (sublist_live_reparse text c).mem hb
  obtain ⟨hp, hfresh⟩ := hc.not_stale_of_mem hb
  rw [outline_reparse, ← h b hlive]
  refine get?_next_of_not_changed hc hp ?_
  cases hch : changed (c.outline.get? b.slot) ((next o text c).get? b.slot) with
  | false => rfl
  | true => exact absurd (mem_staleSlots o (by simp [h b hlive]) hch) hfresh

theorem Original.refresh {c : Composite} (h : c.Original) (hc : Consistent o c) (text : String) :
    (c.refresh o text).Original := by
  rcases refresh_cases o text c with ⟨-, hr⟩ | ⟨-, -, hr⟩ | ⟨-, -, hr⟩ <;> rw [hr]
  · exact h
  · exact h
  · exact h.reparse hc text

theorem Original.document {c : Composite} (h : c.Original) (s : Slot) :
    (c.document o s).2.Original := by
  cases hi : idIn o c.file c.outline s with
  | none => rw [document_of_no_id hi]; exact h
  | some i =>
    cases hf : c.live.find? (·.key = i.text) with
    | some d => rw [document_of_find hi hf]; exact h
    | none =>
      obtain ⟨b, hb, hd⟩ := document_of_not_find hi hf
      obtain ⟨e, i, he, -, rfl⟩ := (anew_eq_some o).1 hb
      rw [hd]
      intro x hx
      rcases List.mem_append.1 hx with hx | hx
      · exact h x hx
      · rw [List.mem_singleton.1 hx]
        exact he

theorem Consistent.find?_key {c : Composite} (h : Consistent o c) {b : BlockDocument}
    (hb : b ∈ c.live) : c.live.find? (·.key = b.key) = some b := by
  cases hf : c.live.find? (·.key = b.key) with
  | none => exact absurd (List.find?_eq_none.1 hf b hb) (by simp)
  | some d =>
    have hkey : d.key = b.key := by simpa using List.find?_some hf
    rw [List.inj_on_of_nodup_map h.keys (List.mem_of_find?_eq_some hf) hb hkey]

theorem Consistent.document_of_live {c : Composite} (h : Consistent o c) {b : BlockDocument}
    (hb : b ∈ c.live) : Composite.document o b.slot c = (some b, c) :=
  document_of_find (h.idIn_of_live hb) (h.find?_key hb)

theorem Consistent.document_of_mem {c : Composite} (h : Consistent o c) {b : BlockDocument}
    (hb : b ∈ (Composite.document o b.slot c).2.live) :
    (Composite.document o b.slot c).1 = some b := by
  cases hi : idIn o c.file c.outline b.slot with
  | none =>
    rw [document_of_no_id hi] at hb
    rw [h.document_of_live hb]
  | some i =>
    cases hf : c.live.find? (·.key = i.text) with
    | some d =>
      rw [document_of_find hi hf] at hb
      rw [h.document_of_live hb]
    | none =>
      obtain ⟨d, -, hd⟩ := document_of_not_find hi hf
      rw [hd] at hb
      rcases List.mem_append.1 hb with hc | hc
      · rw [h.document_of_live hc]
      · rw [hd, List.mem_singleton.1 hc]

theorem Consistent.slot_document {c : Composite} (h : Consistent o c)
    (ht : ∀ e ∈ c.outline.entries, e.block.kind.IsTag) {s : Slot} {b : BlockDocument}
    (hb : (Composite.document o s c).1 = some b) : b.slot = s := by
  rcases h.document_twin ht s with ⟨hn, -⟩ | ⟨d, a, hd, ha, -, hs, -⟩
  · simp [hn] at hb
  · obtain ⟨e, i, -, -, rfl⟩ := (anew_eq_some o).1 ha
    rw [hd, Option.some.injEq] at hb
    exact hb ▸ hs

/-! ### The books -/

def Numbered (c : Composite) : Prop := ∀ b ∈ c.live, b.serial < c.created

/-- On the way from `c` to `c'` the documents `made` were made, the names `gone` were logged and the
names `out` were taken from the log. -/
structure Accounts (c c' : Composite) (made : List BlockDocument) (gone out : List String) : Prop where
  created : c'.created = c.created + made.length
  serials : made.map (·.serial) = List.range' c.created made.length
  balance : ((c.live ++ made).map (·.key)).Perm (gone ++ c'.live.map (·.key))
  stays : ∀ b ∈ c.live, (b ∈ c'.live ↔ b.key ∉ gone)
  origin : ∀ b ∈ c'.live, b ∈ c.live ∨ b ∈ made
  log : c.evicted ++ gone = out ++ c'.evicted

theorem Accounts.numbered {c c' : Composite} {made : List BlockDocument} {gone out : List String}
    (h : Accounts c c' made gone out) (hc : c.Numbered) : c'.Numbered := by
  intro b hb
  rw [h.created]
  rcases h.origin b hb with hb | hb
  · have := hc b hb
    omega
  · have hs : b.serial ∈ made.map (·.serial) := List.mem_map_of_mem hb
    rw [h.serials, List.mem_range'_1] at hs
    exact hs.2

theorem Accounts.trans {c₁ c₂ c₃ : Composite} {made made' : List BlockDocument}
    {gone gone' out out' : List String} (h : Accounts c₁ c₂ made gone out)
    (h' : Accounts c₂ c₃ made' gone' out') (hc : c₁.Numbered) :
    Accounts c₁ c₃ (made ++ made') (gone ++ gone') (out ++ out') where
  created := by
    rw [h'.created, h.created, List.length_append]
    omega
  serials := by
    rw [List.map_append, h.serials, h'.serials, h.created, List.length_append, List.range'_append_1]
  balance := by
    have h₁ := h.balance.append_right (made'.map (·.key))
    have h₂ := h'.balance.append_left gone
    simp only [List.map_append, List.append_assoc] at h₁ h₂ ⊢
    exact h₁.trans h₂
  stays b hb := by
    rw [List.mem_append, not_or, ← h.stays b hb]
    constructor
    · intro hb₃
      -- a document that was made later has a later serial
      have hb₂ : b ∈ c₂.live := by
        rcases h'.origin b hb₃ with hb₂ | hm
        · exact hb₂
        · have hs : b.serial ∈ made'.map (·.serial) := List.mem_map_of_mem hm
          rw [h'.serials, List.mem_range'_1, h.created] at hs
          have := hc b hb
          omega
      exact ⟨hb₂, (h'.stays b hb₂).1 hb₃⟩
    · rintro ⟨hb₂, hgone⟩
      exact (h'.stays b hb₂).2 hgone
  origin b hb := by
    rw [List.mem_append]
    rcases h'.origin b hb with hb | hb
    · rcases h.origin b hb with hb | hb
      · exact .inl hb
      · exact .inr (.inl hb)
    · exact .inr (.inr hb)
  log := by rw [← List.append_assoc, h.log, List.append_assoc, h'.log, List.append_assoc]

theorem accounts_unchanged {c c' : Composite} (hlive : c'.live = c.live)
    (hcreated : c'.created = c.created) (hlog : c'.evicted = c.evicted) : Accounts c c' [] [] [] where
  created := hcreated
  serials := rfl
  balance := by simp [hlive]
  stays b hb := by simp [hlive, hb]
  origin b hb := .inl (hlive ▸ hb)
  log := by simp [hlog]

theorem GivesUp.accounts {c c' : Composite} {gone : List String} (h : GivesUp o c c' gone)
    (hk : (c.live.map (·.key)).Nodup) (hcreated : c'.created = c.created) :
    Accounts c c' [] gone [] := by
  have stays : ∀ b ∈ c.live, (b ∈ c'.live ↔ b.key ∉ gone) := by
    intro b hb
    rw [h.live, List.mem_filter, h.due b hb, decide_eq_true_eq]
    exact and_iff_right hb
  have sub : c'.live.Sublist c.live := h.live ▸ List.filter_sublist
  have kept : (gone ++ c'.live.map (·.key)).Nodup := by
    refine List.nodup_append.2 ⟨h.once, hk.sublist (sub.map _), ?_⟩
    rintro k hk _ hm rfl
    obtain ⟨b, hb, rfl⟩ := List.mem_map.1 hm
    exact (stays b (sub.mem hb)).1 hb hk
  refine ⟨hcreated, rfl, ?_, stays, fun b hb => .inl (sub.mem hb), h.log.symm⟩
  rw [List.append_nil, List.perm_ext_iff_of_nodup hk kept]
  intro k
  rw [List.mem_append]
  constructor
  · intro hm
    obtain ⟨b, hb, rfl⟩ := List.mem_map.1 hm
    by_cases hg : b.key ∈ gone
    · exact .inl hg
    · exact .inr (List.mem_map_of_mem ((stays b hb).2 hg))
  · rintro (hg | hm)
    · obtain ⟨b, hb, rfl⟩ := h.known k hg
      exact List.mem_map_of_mem hb
    · exact (sub.map _).mem hm

theorem created_refresh (text : String) (c : Composite) : (c.refresh o text).created = c.created := by
  rcases refresh_cases o text c with ⟨-, hr⟩ | ⟨-, -, hr⟩ | ⟨-, -, hr⟩ <;> rw [hr]
  rfl

theorem Consistent.accounts_refresh {c : Composite} (h : Consistent o c)
    (ht : ∀ e ∈ c.outline.entries, e.block.kind.IsTag) (text : String) :
    ∃ gone, Accounts c (Composite.refresh o text c) [] gone [] := by
  obtain ⟨gone, hg⟩ := h.givesUp_refresh ht text
  exact ⟨gone, hg.accounts h.keys (created_refresh text c)⟩

theorem accounts_document {c : Composite} (h : c.Numbered) (s : Slot) :
    Accounts c (c.document o s).2 ((c.document o s).1.toList.filter (c.created ≤ ·.serial)) [] [] := by
  cases hi : idIn o c.file c.outline s with
  | none =>
    rw [document_of_no_id hi]
    exact accounts_unchanged rfl rfl rfl
  | some i =>
    cases hf : c.live.find? (·.key = i.text) with
    | some d =>
      have hd := h d (List.mem_of_find?_eq_some hf)
      have hn : ([d].filter (c.created ≤ ·.serial)) = [] := by simpa using hd
      rw [document_of_find hi hf, Option.toList_some, hn]
      exact accounts_unchanged rfl rfl rfl
    | none =>
      obtain ⟨b, -, hd⟩ := document_of_not_find hi hf
      rw [hd]
      constructor <;> simp
      exact fun x hx => .inl hx

/-- Of the documents made under a name all but a live one were logged. -/
theorem Accounts.count_made {c c' : Composite} {made : List BlockDocument} {gone out : List String}
    (h : Accounts c c' made gone out) (hc : Consistent o c') (hlive : c.live = [])
    (hlog : c.evicted = []) (k : String) :
    (made.map (·.key)).count k =
      (out ++ c'.evicted).count k + if c'.hasDocument k then 1 else 0 := by
  have hb := h.balance.count_eq k
  rw [hlive, List.nil_append, List.count_append, hc.keys.count] at hb
  rw [hb, ← h.log, hlog, List.nil_append]
  simp [hasDocument]

end Composite

namespace Action

variable {o : Options} {a : Action} {d : Document} {s : Slot}

def asks (o : Options) : Action → Document → Option Slot
  | .document s, _ => some s
  | .documentAt offset, d => ((d.refresh o).composite.slotAt? offset).map (·.1)
  | .documentById id, d =>
    if (Identifier.compositeOf? id).any (· != d.composite.file) then none
    else (Identifier.parse id).toOption.bind (·.slot?)
  | _, _ => none

theorem run_of_asks (h : a.asks o d = some s) : a.run o d = d.blockDocument o s := by
  cases a with
  | document t =>
    rw [asks, Option.some.injEq] at h
    rw [run, h]
  | documentAt offset =>
    rw [asks, Option.map_eq_some_iff] at h
    obtain ⟨⟨t, e⟩, ht, rfl⟩ := h
    simp only [run, Document.documentAt, ht, Document.blockDocument, Document.refresh_refresh]
  | documentById id =>
    simp only [asks] at h
    split at h
    · simp at h
    · next hf =>
      cases hp : Identifier.parse id with
      | error e => simp [hp, Except.toOption] at h
      | ok i =>
        have hs : i.slot? = some s := by simpa [hp, Except.toOption] using h
        simp [run, Document.documentById, hf, hp, hs, Except.toOption]
  | update | markDirty | outline | mainModule | hasDocument | drainEvicted => simp [asks] at h

/-- What else can be done hands out no document. It is to take the log, to bring the document up to
date, or leaves the books alone. -/
theorem run_of_not_asks (h : a.asks o d = none) :
    (a.run o d).1 = none ∧
      (a = .drainEvicted ∨ a ≠ .drainEvicted ∧ ((a.run o d).2 = d.refresh o ∨
        (a.run o d).2.composite = { d.composite with dirty := (a.run o d).2.composite.dirty })) := by
  cases a with
  | update changes version =>
    refine ⟨rfl, .inr ⟨by simp, .inr ?_⟩⟩
    simp only [run, Document.update]
    split <;> rfl
  | markDirty => exact ⟨rfl, .inr ⟨by simp, .inr rfl⟩⟩
  | outline | mainModule | hasDocument key => exact ⟨rfl, .inr ⟨by simp, .inl rfl⟩⟩
  | drainEvicted => exact ⟨rfl, .inl rfl⟩
  | document t => simp [asks] at h
  | documentAt offset =>
    rw [asks, Option.map_eq_none_iff] at h
    simp [run, Document.documentAt, h]
  | documentById id =>
    simp only [asks] at h
    split at h
    · next hf => simp [run, Document.documentById, hf, Except.toOption]
    · next hf =>
      cases hp : Identifier.parse id with
      | error e => simp [run, Document.documentById, hf, hp, Except.toOption]
      | ok i =>
        have hs : i.slot? = none := by simpa [hp, Except.toOption] using h
        simp [run, Document.documentById, hf, hp, hs, Except.toOption]

end Action

/-! ### Runs -/

namespace Document

variable (o : Options)

def madeBy (d : Document) : Move → List BlockDocument
  | .act a => (a.run o d).1.toList.filter (d.composite.created ≤ ·.serial)
  | .retext _ => []

def drainedBy (d : Document) : Move → List String
  | .act .drainEvicted => (d.drainEvicted o).1
  | _ => []

def made (d : Document) : List Move → List BlockDocument
  | [] => []
  | m :: ms => d.madeBy o m ++ made (d.move o m) ms

def drained (d : Document) : List Move → List String
  | [] => []
  | m :: ms => d.drainedBy o m ++ drained (d.move o m) ms

theorem keeps_original : Action.Keeps o fun d => d.composite.Consistent o ∧ d.composite.Original where
  edit _ _ h := ⟨h.1.markDirty, h.2⟩
  markDirty _ h := ⟨h.1.markDirty, h.2⟩
  refresh _ h := ⟨h.1.refresh _, h.2.refresh h.1 _⟩
  document d s h := ⟨(keeps_consistent o).document d s h.1, (h.2.refresh h.1 _).document s⟩
  drain d h := ⟨(keeps_consistent o).drain d h.1, h.2.refresh h.1 _⟩

variable {o} {file : String}

theorem drainedBy_of_asks {d : Document} {a : Action} {s : Slot} (h : a.asks o d = some s) :
    d.drainedBy o (.act a) = [] := by
  cases a <;> simp [Action.asks] at h <;> rfl

theorem Regular.accounts_move {d : Document} (h : d.Regular o file) (hn : d.composite.Numbered)
    (m : Move) :
    ∃ gone, d.composite.Accounts (d.move o m).composite (d.madeBy o m) gone (d.drainedBy o m) := by
  obtain ⟨-, hc, ht⟩ := h
  obtain ⟨gone, hr⟩ := hc.accounts_refresh ht d.source.text
  cases m with
  | retext s => exact ⟨[], Composite.accounts_unchanged rfl rfl rfl⟩
  | act a =>
    cases ha : a.asks o d with
    | some s =>
      have hcreated := Composite.created_refresh (o := o) d.source.text d.composite
      have hd := hr.trans (Composite.accounts_document (o := o) (hr.numbered hn) s) hn
      rw [List.nil_append, List.append_nil, List.append_nil, hcreated] at hd
      rw [drainedBy_of_asks ha, madeBy, move, Action.run_of_asks ha]
      exact ⟨gone, hd⟩
    | none =>
      obtain ⟨hnone, hcase⟩ := Action.run_of_not_asks ha
      have hmade : d.madeBy o (.act a) = [] := by rw [madeBy, hnone]; rfl
      rw [hmade]
      rcases hcase with rfl | ⟨hne, hcase⟩
      · exact ⟨gone, { hr with log := by rw [hr.log]; exact (List.append_nil _).symm }⟩
      · have hdrain : d.drainedBy o (.act a) = [] := by
          cases a <;> first | rfl | exact absurd rfl hne
        rw [hdrain, move]
        rcases hcase with hcase | hcase
        · rw [hcase]
          exact ⟨gone, hr⟩
        · rw [hcase]
          exact ⟨[], Composite.accounts_unchanged rfl rfl rfl⟩

theorem Regular.accounts_run (hp : ∀ t, ∀ b ∈ (o.parser t).blocks, b.kind.IsTag) {d : Document}
    (h : d.Regular o file) (hn : d.composite.Numbered) (ms : List Move) :
    ∃ gone, d.composite.Accounts (d.run o ms).composite (d.made o ms) gone (d.drained o ms) := by
  induction ms generalizing d with
  | nil => exact ⟨[], Composite.accounts_unchanged rfl rfl rfl⟩
  | cons m ms ih =>
    obtain ⟨gone, hm⟩ := h.accounts_move hn m
    have hr : (d.move o m).Regular o file := (keeps_regular hp file).moves (fun _ _ h => h) h [m]
    obtain ⟨gone', hms⟩ := ih hr (hm.numbered hn)
    exact ⟨gone ++ gone', hm.trans hms hn⟩

/-- No block document is lost unnoticed. After any run: a slot that gave a document gives the same
one when it is next asked for, exactly if the name of the document was not logged in between; of
the documents ever made under a name, one may be live and each of the others was logged; and every
live document is found under its own name, which is that of its slot, and shows the very block it
was made from. -/
theorem documents_live_or_logged
    (hp : ∀ t, ∀ b ∈ (o.parser t).blocks, ∃ tag, b.kind = .ofTag tag) (file text : String)
    (version : Int) (ms : List Move) :
    let d₀ := ofText file text version
    let d := d₀.run o ms
    (∀ (a a' : Action) (s : Slot) (b : BlockDocument) (between : List Move),
      let d₁ := (a.run o d).2
      let d₂ := d₁.run o between
      a.asks o d = some s → (a.run o d).1 = some b → a'.asks o d₂ = some s →
        ∃ gone, d₁.composite.evicted ++ gone =
            d₁.drained o between ++ (a'.run o d₂).2.composite.evicted ∧
          ((a'.run o d₂).1 = some b ↔ b.key ∉ gone)) ∧
    ((d₀.made o ms).map (·.serial) = List.range d.composite.created ∧
      ∀ k, ((d₀.made o ms).map (·.key)).count k =
        (d₀.drained o ms ++ d.composite.evicted).count k +
          if d.composite.hasDocument k then 1 else 0) ∧
    ∀ b ∈ d.composite.live,
      d.composite.live.find? (·.key = b.key) = some b ∧
        d.composite.blockId? o b.slot = some b.key ∧
        b.current (some d.composite.outline) = b.initial := by
  have hp' : ∀ t, ∀ b ∈ (o.parser t).blocks, b.kind.IsTag :=
    fun t b hb => Kind.isTag_of_exists (hp t b hb)
  intro d₀ d
  have keeps := keeps_regular hp' file
  have hr₀ : d₀.Regular o file := regular_ofText o file text version
  have hn₀ : d₀.composite.Numbered := by simp [d₀, ofText, Composite.Numbered]
  have hr : d.Regular o file := keeps.moves (fun _ _ h => h) hr₀ ms
  obtain ⟨logged, ha⟩ := hr₀.accounts_run hp' hn₀ ms
  have hn : d.composite.Numbered := ha.numbered hn₀
  refine ⟨?_, ⟨?_, ha.count_made hr.2.1 rfl rfl⟩, fun b hb => ⟨hr.2.1.find?_key hb, ?_, ?_⟩⟩
  · intro a a' s b between d₁ d₂ hs hb hs'
    have hr₁ : d₁.Regular o file := keeps.run a hr
    have hr₂ : d₂.Regular o file := keeps.moves (fun _ _ h => h) hr₁ between
    obtain ⟨_, h₁⟩ := hr.accounts_move hn (.act a)
    have hn₁ : d₁.composite.Numbered := h₁.numbered hn
    obtain ⟨gone, h₂⟩ := hr₁.accounts_run hp' hn₁ between
    obtain ⟨gone', h₃⟩ := hr₂.accounts_move (h₂.numbered hn₁) (.act a')
    have h := h₂.trans h₃ hn₁
    have hslot : b.slot = s := by
      rw [Action.run_of_asks hs] at hb
      obtain ⟨-, hc, ht⟩ := keeps.refresh d hr
      exact hc.slot_document ht hb
    refine ⟨gone ++ gone', ?_, ?_⟩
    · rw [h.log, drainedBy_of_asks hs', List.append_nil]
      rfl
    · rw [← h.stays b (Action.mem_live_run hb)]
      refine ⟨Action.mem_live_run, fun hl => ?_⟩
      simp only [move, Action.run_of_asks hs', ← hslot] at hl ⊢
      exact (keeps.refresh d₂ hr₂).2.1.document_of_mem hl
  · rw [ha.serials, ha.created, List.range_eq_range']
    simp [d₀, ofText]
  · rw [Composite.blockId?, hr.2.1.idIn_of_live hb]
    rfl
  · have horiginal := (keeps_original o).moves (fun _ _ h => h)
      (d := d₀) ⟨hr₀.2.1, by simp [d₀, ofText, Composite.Original]⟩ ms
    rw [BlockDocument.current, Option.bind_some, horiginal.2 b hb, Option.getD_some]

theorem documents_live_or_logged_style :
    let o : Options := ⟨fun t => { blocks := [
      { kind := .script, attrs := .ofList [], span := ⟨8, 9⟩, content := "a" },
      { kind := .style, attrs := .ofList [], span := ⟨20, 21⟩, content := t }] }, .empty, none⟩
    let script : Action := .document .script
    let again : Action := .documentById "a.vue?vue&type=script&lang.ts"
    let style : Move := .act (.document (.style 0))
    let edited : List Move := [style, .act (.update [⟨none, "y"⟩] 2), .act .drainEvicted, style]
    let d₀ := (ofText "a.vue" "x" 1).run o []
    let d := (script.run o d₀).2.run o edited
    (∀ t, ∀ b ∈ (o.parser t).blocks, ∃ tag, b.kind = .ofTag tag) ∧
      d₀.drained o (.act script :: edited) = ["a.vue?vue&type=style&index=0&lang.css"] ∧
      ((d₀.made o (.act script :: edited)).map (·.key)).count
        "a.vue?vue&type=style&index=0&lang.css" = 2 ∧
      (again.run o d).1 = (script.run o d₀).1 ∧
      ∀ b ∈ d.composite.live, b.current (some d.composite.outline) = b.initial := by
  intro o script again style edited d₀ d
  have hp : ∀ t, ∀ b ∈ (o.parser t).blocks, ∃ tag, b.kind = .ofTag tag := by
    intro t b hb
    simp only [o, List.mem_cons, List.not_mem_nil, or_false] at hb
    rcases hb with rfl | rfl
    · exact ⟨"script", rfl⟩
    · exact ⟨"style", rfl⟩
  have hdrained : d₀.drained o (.act script :: edited) =
      ["a.vue?vue&type=style&index=0&lang.css"] := by decide +kernel
  have htwo : (d₀.drained o (.act script :: edited) ++ d.composite.evicted).count
      "a.vue?vue&type=style&index=0&lang.css" +
        (if d.composite.hasDocument "a.vue?vue&type=style&index=0&lang.css" then 1 else 0) = 2 := by
    decide +kernel
  have hscript : (script.run o d₀).1.map (·.key) = some "a.vue?vue&type=script&lang.js" := by
    decide +kernel
  have hasks : again.asks o d = some .script := by decide +kernel
  have hbefore : (script.run o d₀).2.composite.evicted = [] := by decide +kernel
  have hafter : (script.run o d₀).2.drained o edited ++ (again.run o d).2.composite.evicted =
      ["a.vue?vue&type=style&index=0&lang.css"] := by decide +kernel
  clear_value o
  obtain ⟨hsame, -⟩ := documents_live_or_logged hp "a.vue" "x" 1 []
  obtain ⟨-, ⟨-, hcount⟩, hlive⟩ :=
    documents_live_or_logged hp "a.vue" "x" 1 (.act script :: edited)
  obtain ⟨b, hb, hkey⟩ := Option.map_eq_some_iff.1 hscript
  obtain ⟨gone, hlog, hiff⟩ := hsame script again .script b edited rfl hb hasks
  have hgone : gone = ["a.vue?vue&type=style&index=0&lang.css"] := by
    rw [hbefore, hafter] at hlog
    exact hlog
  refine ⟨hp, hdrained, (hcount _).trans htwo, ?_, fun b hb => (hlive b hb).2.2⟩
  rw [hb]
  exact hiff.2 (by rw [hgone, hkey]; decide)

end Document

end BlockLens
