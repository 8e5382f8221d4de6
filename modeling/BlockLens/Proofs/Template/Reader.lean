import BlockLens.Proofs.Markup.Printed
import BlockLens.Template.Expressions

set_option autoImplicit false

namespace BlockLens.Template

open Text Markup

def Bound (key : List Char) : Prop :=
  [':'] <+: key ∨ ['@'] <+: key ∨ "v-bind:".toList <+: key ∨ "v-on:".toList <+: key ∨
    String.ofList key ∈ ["v-if", "v-else-if", "v-show", "v-model", "v-html", "v-text"]

theorem startsWith_eq_true {w s : List Char} : startsWith w s = true ↔ w <+: s := by
  rw [startsWith, Option.isSome_iff_exists]
  exact exists_congr fun r => after?_eq_some.trans eq_comm

theorem isBound_eq_true {key : List Char} : isBound key = true ↔ Bound key := by
  simp only [isBound, Bound, Bool.or_eq_true, startsWith_eq_true, List.contains_iff_mem, directives,
    or_assoc]

def Visible (s : List Char) : Prop := ∃ c ∈ s, isSpace c = false

theorem isVoid_eq_false {s : List Char} : isVoid s = false ↔ Visible s := by
  simp [isVoid, Visible]

theorem isExpression_eq_true {key v : List Char} :
    (isBound key && !isVoid v) = true ↔ Bound key ∧ Visible v := by
  rw [Bool.and_eq_true, isBound_eq_true, Bool.not_eq_true', isVoid_eq_false]

instance (key : List Char) : Decidable (Bound key) :=
  inferInstanceAs (Decidable (_ ∨ _ ∨ _ ∨ _ ∨ _))

instance (s : List Char) : Decidable (Visible s) :=
  List.decidableBEx (fun c => isSpace c = false) s

theorem expressionsFrom_comment (o : Nat) {t c r : List Char}
    (h : cut? ['-', '-', '>'] ('!' :: '-' :: '-' :: t) = some (c, r)) :
    expressionsFrom o ('<' :: '!' :: '-' :: '-' :: t) = expressionsFrom (o + 1 + width c + 3) r := by
  rw [expressionsFrom]
  split
  · next c' r' h' =>
    obtain ⟨rfl, rfl⟩ := Prod.mk.inj (Option.some.inj (h.symm.trans h'))
    rfl
  · next h' =>
    rw [h] at h'
    contradiction

theorem expressionsFrom_interpolation (o : Nat) {t e r : List Char}
    (h : cut? ['}', '}'] t = some (e, r)) :
    expressionsFrom o ('{' :: '{' :: t) =
      (if Visible e then [⟨o + 2, e⟩] else []) ++ expressionsFrom (o + 2 + width e + 2) r := by
  rw [expressionsFrom]
  split
  · next e' r' h' =>
    obtain ⟨rfl, rfl⟩ := Prod.mk.inj (Option.some.inj (h.symm.trans h'))
    cases hv : isVoid e with
    | false => rw [if_neg Bool.false_ne_true, if_pos (isVoid_eq_false.1 hv)]
    | true =>
      have hn : ¬ Visible e := fun h => by simp [isVoid_eq_false.2 h] at hv
      rw [if_pos rfl, if_neg hn]
  · next h' =>
    rw [h] at h'
    contradiction

theorem expressionsFrom_open (o : Nat) {s t : List Char}
    (h : s = '<' :: '!' :: '-' :: '-' :: t ∧ cut? ['-', '-', '>'] ('!' :: '-' :: '-' :: t) = none ∨
      s = '{' :: '{' :: t ∧ cut? ['}', '}'] t = none) :
    expressionsFrom o s = [] := by
  rcases h with ⟨rfl, h⟩ | ⟨rfl, h⟩ <;> rw [expressionsFrom]
  all_goals
    split
    · next h' =>
      rw [h] at h'
      contradiction
    · rfl

theorem expressionsFrom_tag (o : Nat) {c : Char} (hc : c.isAlpha = true) (t : List Char) :
    expressionsFrom o ('<' :: c :: t) =
      let p := readAttributes (o + 1 + width ((c :: t).takeWhile isTagChar))
        ((c :: t).dropWhile isTagChar)
      p.1 ++ expressionsFrom (o + (width ('<' :: c :: t) - width p.2)) p.2 := by
  have hbang : c ≠ '!' := by
    rintro rfl
    contradiction
  rw [expressionsFrom, if_pos hc]
  exact fun _ h _ => hbang h

theorem expressionsFrom_other (o : Nat) {c : Char} {t : List Char}
    (htag : c = '<' → (∀ v, t ≠ '!' :: '-' :: '-' :: v) ∧ ∀ d ∈ t.head?, d.isAlpha = false)
    (hbrace : c = '{' → t.head? ≠ some '{') :
    expressionsFrom o (c :: t) = expressionsFrom (o + c.utf8Size) t := by
  rw [expressionsFrom.eq_def]
  split
  · contradiction
  · next h =>
    obtain ⟨rfl, rfl⟩ := List.cons.inj h
    exact absurd rfl ((htag rfl).1 _)
  · next h =>
    obtain ⟨rfl, rfl⟩ := List.cons.inj h
    exact absurd rfl (hbrace rfl)
  · next d t' _ h =>
    obtain ⟨rfl, rfl⟩ := List.cons.inj h
    rw [if_neg (by simp [(htag rfl).2 d rfl])]
    rfl
  · next h =>
    obtain ⟨rfl, rfl⟩ := List.cons.inj h
    rfl

theorem isGap_of_isKeyChar {c : Char} (h : Tag.isKeyChar c = true) : isGap c = false := by
  simp only [Tag.isKeyChar, Bool.not_eq_true', Bool.or_eq_false_iff] at h
  simp [isGap, h.1.1.1, h.2]

theorem isGap_of_isBlank {c : Char} (h : isBlank c = true) : isGap c = true := by simp [isGap, h]

theorem ne_of_isKeyChar {c : Char} (h : Tag.isKeyChar c = true) : c ≠ '>' := by
  rintro rfl
  contradiction

theorem readAttributes_eq (o : Nat) (s : List Char) :
    readAttributes o s =
      match s.dropWhile isGap with
      | [] => ([], [])
      | c :: t =>
        if c = '>' then ([], t)
        else
          let o₁ := o + width (s.takeWhile isGap)
          let a := readAttribute o₁ c t
          let p := readAttributes (o₁ + (width (c :: t) - width a.2)) a.2
          (a.1.toList ++ p.1, p.2) := by
  rw [readAttributes]
  split
  · next h => rw [h]
  · next c t h => rw [h]

theorem readAttributes_gap (o : Nat) {u : List Char} (hu : ∀ c ∈ u, isGap c = true) (t : List Char) :
    readAttributes o (u ++ t) = readAttributes (o + width u) t := by
  have hdrop : (u ++ t).dropWhile isGap = t.dropWhile isGap := List.dropWhile_append_of_pos hu
  have htake : (u ++ t).takeWhile isGap = u ++ t.takeWhile isGap := List.takeWhile_append_of_pos hu
  rw [readAttributes_eq o, readAttributes_eq (o + width u), hdrop, htake, width_append,
    Nat.add_assoc]

theorem readAttributes_blanks (o : Nat) {u : List Char} (hu : ∀ c ∈ u, isBlank c = true)
    (t : List Char) : readAttributes o (u ++ t) = readAttributes (o + width u) t :=
  readAttributes_gap o (fun c hc => isGap_of_isBlank (hu c hc)) t

theorem readAttributes_turn (o : Nat) {c : Char} {s u t : List Char} {e : Option Excerpt}
    (hgap : isGap c = false) (hend : c ≠ '>') (hread : readAttribute o c s = (e, t))
    (hu : c :: s = u ++ t) :
    readAttributes o (c :: s) =
      (e.toList ++ (readAttributes (o + width u) t).1, (readAttributes (o + width u) t).2) := by
  have hdrop : (c :: s).dropWhile isGap = c :: s := by simp [hgap]
  have htake : (c :: s).takeWhile isGap = [] := by simp [hgap]
  have hwidth : width (c :: s) - width t = width u := by
    rw [hu, width_append, Nat.add_sub_cancel]
  rw [readAttributes_eq, hdrop, htake]
  simp only [hend, if_false, width.eq_1, Nat.add_zero, hread, hwidth]

def Loose (t : List Char) : Prop := ∀ c ∈ t.head?, Tag.isKeyChar c = false ∧ c ≠ '='

theorem loose_cons {c : Char} {t : List Char} (h : isBlank c = true ∨ c = '>' ∨ c = '/') :
    Loose (c :: t) := by
  rintro _ ⟨⟩
  rcases h with h | rfl | rfl
  · refine ⟨isKeyChar_of_breaks c (.inl h), ?_⟩
    rintro rfl
    contradiction
  · exact ⟨rfl, by decide⟩
  · exact ⟨rfl, by decide⟩

theorem readAttributes_bare (o : Nat) {k t : List Char} (hne : k ≠ [])
    (hk : ∀ d ∈ k, Tag.isKeyChar d = true) (ht : Loose t) :
    readAttributes o (k ++ t) = readAttributes (o + width k) t := by
  obtain ⟨c, k, rfl⟩ := List.exists_cons_of_ne_nil hne
  have hc := hk c List.mem_cons_self
  have hread : readAttribute o c (k ++ t) = (none, t) := by
    obtain ⟨-, hdrop⟩ := takeWhile_append (fun d hd => hk d (List.mem_cons_of_mem _ hd))
      fun d hd => (ht d hd).1
    rw [readAttribute, if_pos hc, hdrop]
    cases t with
    | nil => rfl
    | cons d t =>
      have hd : d ≠ '=' := (ht d rfl).2
      split
      · next h => exact absurd (List.cons.inj h).1 hd
      · next h => exact absurd (List.cons.inj h).1 hd
      · rfl
  exact readAttributes_turn o (isGap_of_isKeyChar hc) (ne_of_isKeyChar hc) hread rfl

theorem readAttributes_quoted (o : Nat) {q : Char} {k v : List Char} (hne : k ≠ [])
    (hk : ∀ d ∈ k, Tag.isKeyChar d = true) (hq : Tag.isQuote q = true) (hv : q ∉ v)
    (t : List Char) :
    readAttributes o (k ++ '=' :: q :: (v ++ q :: t)) =
      ((if Bound k ∧ Visible v then [⟨o + width k + 2, v⟩] else []) ++
          (readAttributes (o + width (k ++ '=' :: q :: v ++ [q])) t).1,
        (readAttributes (o + width (k ++ '=' :: q :: v ++ [q])) t).2) := by
  obtain ⟨c, k, rfl⟩ := List.exists_cons_of_ne_nil hne
  have hc := hk c List.mem_cons_self
  have hstop : ∀ d ∈ ('=' :: q :: (v ++ q :: t)).head?, Tag.isKeyChar d = false := by
    rintro _ ⟨⟩
    rfl
  obtain ⟨htake, hdrop⟩ :=
    takeWhile_append (fun d hd => hk d (List.mem_cons_of_mem _ hd)) hstop
  have hread : readAttribute o c (k ++ '=' :: q :: (v ++ q :: t)) =
      (if isBound (c :: k) && !isVoid v then some ⟨o + width (c :: k) + 2, v⟩ else none, t) := by
    rw [readAttribute, if_pos hc, hdrop, htake]
    simp only [hq, if_true, cut?_singleton hv]
  have hturn := readAttributes_turn o (isGap_of_isKeyChar hc) (ne_of_isKeyChar hc) hread
    (u := c :: k ++ '=' :: q :: v ++ [q]) (by simp)
  rw [List.cons_append, hturn]
  by_cases he : Bound (c :: k) ∧ Visible v
  · simp only [isExpression_eq_true, he, and_self, if_true, Option.toList_some, List.cons_append]
  · simp only [isExpression_eq_true, he, if_false, Option.toList_none, List.cons_append]

end BlockLens.Template
