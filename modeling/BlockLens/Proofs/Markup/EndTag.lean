import BlockLens.Proofs.Markup.RoundTrip
/-!
Which end tag closes an element. An open tag counts only where its name is over; an end tag counts
as soon as it begins with the name. A tag of another element whose name begins alike therefore
closes too much, and nothing else does.
-/

set_option autoImplicit false

namespace BlockLens.Markup

open Text

def Bounded : List Char → Prop
  | [] => False
  | c :: _ => isBlank c = true ∨ c = '/' ∨ c = '>'

instance : DecidablePred Bounded
  | [] => inferInstanceAs (Decidable False)
  | c :: _ => inferInstanceAs (Decidable (isBlank c = true ∨ c = '/' ∨ c = '>'))

/-- An end tag in `s` whose name begins with `name` and goes on. -/
def Strays (name s : List Char) : Prop :=
  ∃ p r, s = p ++ '<' :: '/' :: name ++ r ∧ ¬ Bounded r

theorem read?_template : Tag.read? ('<' :: template) = none := by
  have hdrop : template.dropWhile Tag.isNameChar = [] := by decide
  have hrest : Tag.rest? (.ofList []) [] = none := by
    rw [Tag.rest?]
    rfl
  have hname : Tag.isNameStart 't' = true := rfl
  have htext : template = 't' :: "emplate".toList := rfl
  rw [htext] at hdrop ⊢
  simp only [Tag.read?, hname, if_true, hdrop, hrest, Option.map_none]

theorem opens_of_not_bounded {s : List Char}
    (h : ∀ r ∈ after? ('<' :: template) s, ¬ Bounded r) : opens template s = false := by
  unfold opens
  split
  · rfl
  · next t ht =>
    cases t with
    | nil =>
      -- behind the name the text is over, and no tag is read
      rw [after?_eq_some, List.append_nil] at ht
      rw [ht, read?_template]
      rfl
    | cons c t =>
      have hc : ¬ Bounded (c :: t) := h _ ht
      simp only [Bounded, not_or] at hc
      simp [hc]

def IsTag (closes : Bool) (u : List Char) : Prop :=
  ∃ tail tag, u = template ++ tail ∧ Bounded tail ∧
    Tag.read? ('<' :: u) = some (tag, []) ∧ tag.selfClosing = closes

theorem IsTag.opens {closes : Bool} {u : List Char} (h : IsTag closes u) (t : List Char) :
    opens template ('<' :: (u ++ t)) = !closes := by
  obtain ⟨tail, tag, rfl, hb, hread, rfl⟩ := h
  have hwhole : Tag.read? ('<' :: (template ++ tail ++ t)) = some (tag, t) := by
    simpa using Tag.read?_append hread t
  cases tail with
  | nil => exact hb.elim
  | cons c tail =>
    have hafter : after? ('<' :: template) ('<' :: (template ++ c :: tail ++ t)) =
        some (c :: (tail ++ t)) := by
      rw [after?_eq_some]
      simp
    have hnext : (isBlank c || c == '>' || c == '/') = true := by
      rcases hb with h | h | h <;> simp [h]
    simp only [Markup.opens, hafter, hnext, hwhole, Bool.true_and]

def Opening.plain : Opening := ⟨[], [], false, by simp, by simp⟩

theorem read?_plain {name : List Char} (hname : IsName name) (r : List Char) :
    Tag.read? ('<' :: name ++ ['>'] ++ r) = some (⟨String.ofList name, .ofList [], false⟩, r) :=
  read?_text hname Opening.plain r

/-! ### Stretches of text between the tags of templates -/

/-- In `s ++ t`, no tag of a template begins in `s`; an end tag that begins there with the name of
one ends there too. An end tag that goes on behind `s` is left out, though it may be of another
name: the search takes all up to the next `>` for a part of it, and so may pass by the end tag of a
template. -/
def Loose : List Char → List Char → Prop
  | [], _ => True
  | c :: s, t =>
    (∀ r ∈ after? ('<' :: template) (c :: s ++ t), ¬ Bounded r) ∧
    (∀ r ∈ after? ('<' :: '/' :: template) (c :: s ++ t),
      ¬ Bounded r ∧ ∃ r' ∈ after? ('<' :: '/' :: template) (c :: s), '>' ∈ r') ∧
    Loose s t

instance decidableLoose : ∀ s t, Decidable (Loose s t)
  | [], _ => inferInstanceAs (Decidable True)
  | _ :: s, t =>
    have := decidableLoose s t
    inferInstanceAs (Decidable (_ ∧ _ ∧ _))

theorem Loose.right {p s t : List Char} (h : Loose (p ++ s) t) : Loose s t := by
  induction p with
  | nil => exact h
  | cons c p ih => exact ih h.2.2

theorem Loose.avoids {s t : List Char} (h : Loose s t)
    (hs : cut? ('<' :: '/' :: template) s = none) : Avoids ('<' :: '/' :: template) s t := by
  induction s with
  | nil => trivial
  | cons c s ih =>
    obtain ⟨-, hends, hrest⟩ := h
    simp only [cut?] at hs
    split at hs
    · contradiction
    · next ha =>
      rw [Option.map_eq_none_iff] at hs
      refine ⟨Option.eq_none_iff_forall_not_mem.2 fun r hr => ?_, ih hrest hs⟩
      obtain ⟨-, r', hr', -⟩ := hends r hr
      simp [ha] at hr'

theorem Loose.countOpens {p s t : List Char} (h : Loose (p ++ s) t) (n : Nat) :
    countOpens template (p.length + n) (p ++ (s ++ t)) = countOpens template n (s ++ t) := by
  induction p with
  | nil => simp
  | cons c p ih =>
    obtain ⟨hopens, -, hrest⟩ := h
    have ho : opens template (c :: (p ++ (s ++ t))) = false := by
      refine opens_of_not_bounded ?_
      simpa using hopens
    rw [List.length_cons, Nat.add_right_comm, List.cons_append, Markup.countOpens, ho, ih hrest]
    simp

/-- In `s ++ t`, an end tag that begins in `s` with the name of a template is one of a template. -/
def Exact : List Char → List Char → Prop
  | [], _ => True
  | c :: s, t => (∀ r ∈ after? ('<' :: '/' :: template) (c :: s ++ t), Bounded r) ∧ Exact s t

theorem exact_append {p q t : List Char} :
    Exact (p ++ q) t ↔ Exact p (q ++ t) ∧ Exact q t := by
  induction p with
  | nil => simp [Exact]
  | cons c p ih => simp [Exact, ih, and_assoc]

theorem exact_of_avoids {s t : List Char} (h : Avoids ('<' :: '/' :: template) s t) :
    Exact s t := by
  induction s with
  | nil => trivial
  | cons c s ih =>
    obtain ⟨ha, hs⟩ := h
    exact ⟨fun r hr => absurd (ha.symm.trans hr) (by simp), ih hs⟩

/-! ### How many elements a stretch closes -/

/-- Over `s`, followed by `t`, `k` more elements are closed than are opened in it: the search goes
on behind `s` with so many fewer, or has come to its end before. -/
def Closes (k : Nat) (s t : List Char) : Prop :=
  ∀ d, (k ≤ d → content? template true d (s ++ t) =
      (content? template true (d - k) t).map fun q => (s ++ q.1, q.2)) ∧
    (d < k → ∃ b r, content? template true d (s ++ t) = some (b, r) ∧ t.length ≤ r.length)

theorem Closes.append {k l : Nat} {p q t : List Char} (hp : Closes k p (q ++ t))
    (hq : Closes l q t) : Closes (k + l) (p ++ q) t := by
  intro d
  obtain ⟨hpass, hend⟩ := hp d
  rw [List.append_assoc]
  constructor
  · intro hd
    rw [hpass (by omega), (hq (d - k)).1 (by omega), Nat.sub_sub]
    simp [Function.comp_def]
  · intro hd
    by_cases hk : d < k
    · obtain ⟨b, r, hb, hr⟩ := hend hk
      rw [List.length_append] at hr
      exact ⟨b, r, hb, by omega⟩
    · obtain ⟨b, r, hb, hr⟩ := (hq (d - k)).2 (by omega)
      exact ⟨p ++ b, r, by rw [hpass (by omega), hb]; rfl, hr⟩

theorem IsTag.after?_eq_none {closes : Bool} {u : List Char} (h : IsTag closes u)
    (t : List Char) : after? ('<' :: '/' :: template) ('<' :: (u ++ t)) = none := by
  obtain ⟨tail, -, rfl, -⟩ := h
  obtain ⟨c, s, hname, hc⟩ := isName_template.1
  have hne : '/' ≠ c := by
    rintro rfl
    contradiction
  simp [after?, hname, hne]

theorem IsTag.content?_eq {closes : Bool} {u : List Char} (h : IsTag closes u) (d : Nat)
    (t : List Char) :
    content? template true d ('<' :: (u ++ t)) =
      (content? template true (d + if closes then 0 else 1) (u ++ t)).map fun q =>
        ('<' :: q.1, q.2) := by
  have hclose : Avoids ('<' :: '/' :: template) ['<'] (u ++ t) := ⟨h.after?_eq_none t, trivial⟩
  have hopen : ∀ n, countOpens template (['<'].length + n) (['<'] ++ (u ++ t)) =
      (if closes then 0 else 1) + countOpens template n (u ++ t) := by
    intro n
    rw [List.singleton_append, List.length_singleton, Nat.add_comm 1 n, countOpens, h.opens]
    cases closes <;> rfl
  have heq := content?_append (d := d) hclose hopen
  rw [List.singleton_append] at heq
  exact heq

theorem Closes.void {k : Nat} {u s t : List Char} (hu : IsTag true u) (h : Closes k (u ++ s) t) :
    Closes k ('<' :: (u ++ s)) t := by
  intro d
  have hsign := hu.content?_eq d (s ++ t)
  rw [← List.append_assoc] at hsign
  obtain ⟨hpass, hend⟩ := h d
  rw [List.cons_append, hsign]
  constructor
  · intro hd
    simp only [if_true, Nat.add_zero, hpass hd, Option.map_map]
    rfl
  · intro hd
    obtain ⟨b, r, hb, hr⟩ := hend hd
    refine ⟨'<' :: b, r, ?_, hr⟩
    simp only [if_true, Nat.add_zero, hb, Option.map_some]

theorem Closes.element {k : Nat} {u s t : List Char} (hu : IsTag false u)
    (h : Closes k (u ++ s) (endTag template ++ t)) :
    Closes k ('<' :: (u ++ s) ++ endTag template) t := by
  intro d
  have hsign := hu.content?_eq d (s ++ (endTag template ++ t))
  rw [← List.append_assoc] at hsign
  obtain ⟨hpass, hend⟩ := h (d + 1)
  rw [List.append_assoc, List.cons_append, hsign]
  simp only [Bool.false_eq_true, if_false]
  constructor
  · intro hd
    have hlast := content?_endTag template t (d - k + 1) true
    rw [hpass (by omega), Nat.succ_sub hd, hlast]
    simp [Function.comp_def]
  · intro hd
    by_cases hk : k = d + 1
    · -- the end tag of this very element is taken for that of the block
      have hlast := content?_endTag template t 0 true
      refine ⟨'<' :: (u ++ s), t, ?_, Nat.le_refl _⟩
      rw [hpass (by omega), hk, Nat.sub_self, hlast]
      simp
    · obtain ⟨b, r, hb, hr⟩ := hend (by omega)
      rw [List.length_append] at hr
      exact ⟨'<' :: b, r, by rw [hb]; rfl, by omega⟩

theorem closes_one {b gap t : List Char}
    (hcut : cut? ('<' :: '/' :: template) (b ++ '<' :: '/' :: template ++ gap ++ ['>'] ++ t) =
      some (b, gap ++ ['>'] ++ t))
    (hgap : cut? ['>'] (gap ++ ['>'] ++ t) = some (gap, t))
    (hopen : countOpens template b.length
      (b ++ '<' :: '/' :: template ++ gap ++ ['>'] ++ t) = 0) :
    Closes 1 (b ++ '<' :: '/' :: template ++ gap ++ ['>']) t := by
  intro d
  have hdepth : depthAfter template true d b
      (b ++ '<' :: '/' :: template ++ gap ++ ['>'] ++ t) = d := by
    simp only [depthAfter, if_true, hopen, Nat.add_zero]
  rw [content?_of_cut?, hcut]
  simp only [Option.bind_some, hgap, hdepth]
  cases d with
  | zero => exact ⟨fun h => absurd h (by decide), fun _ => ⟨b, t, rfl, Nat.le_refl _⟩⟩
  | succ e =>
    refine ⟨fun _ => ?_, fun h => absurd h (by omega)⟩
    simp

/-- A stretch closes nothing unless an end tag in it goes on behind the name. -/
theorem exists_closes_of_loose {s t : List Char} (h : Loose s t) :
    ∃ k, Closes k s t ∧ (k = 0 ↔ Exact s t) := by
  cases hcut : cut? ('<' :: '/' :: template) s with
  | none =>
    have havoid := h.avoids hcut
    refine ⟨0, fun d => ⟨fun _ => ?_, fun hd => absurd hd (Nat.not_lt_zero d)⟩, ?_⟩
    · refine content?_append (k := 0) havoid fun n => ?_
      have hcount := Loose.countOpens (p := s) (s := []) (by simpa using h) n
      simpa using hcount
    · exact iff_of_true rfl (exact_of_avoids havoid)
  | some q =>
    obtain ⟨b, u⟩ := q
    have hs := eq_of_cut? hcut
    have hlen := length_of_cut? hcut
    have htail : Loose ('<' :: ('/' :: template ++ u)) t := by
      refine Loose.right (p := b) ?_
      simpa [hs] using h
    have hafter : after? ('<' :: '/' :: template) ('<' :: ('/' :: template ++ u) ++ t) =
        some (u ++ t) := after?_eq_some.2 (by simp)
    obtain ⟨hbound, r', hr', hmem⟩ := htail.2.1 _ hafter
    obtain rfl : r' = u := by
      have hr := after?_eq_some.1 hr'
      simpa using hr.symm
    obtain ⟨⟨gap, v⟩, hgap⟩ : ∃ q, cut? ['>'] r' = some q := by
      obtain ⟨x, y, hxy⟩ := List.append_of_mem hmem
      exact Option.isSome_iff_exists.1 (contains_eq_true.2 ⟨x, y, by simp [hxy]⟩)
    have hu := eq_of_cut? hgap
    have hsplit : s = b ++ '<' :: '/' :: template ++ gap ++ ['>'] ++ v := by simp [hs, hu]
    have hv : Loose v t := Loose.right (hsplit ▸ h)
    have hshort : v.length < s.length := by
      simp only [hsplit, List.length_append, List.length_cons]
      omega
    obtain ⟨k, hk, -⟩ := exists_closes_of_loose hv
    have hone : Closes 1 (b ++ '<' :: '/' :: template ++ gap ++ ['>']) (v ++ t) := by
      refine closes_one ?_ ?_ ?_
      · have hext := cut?_extend hcut t
        rw [hsplit, hu] at hext
        simpa using hext
      · have hext := cut?_extend hgap t
        rw [hu] at hext
        simpa using hext
      · rw [hs, List.append_assoc] at h
        have hcount := h.countOpens 0
        simpa [Markup.countOpens, hu] using hcount
    refine ⟨1 + k, hsplit ▸ hone.append hk, iff_of_false (by omega) fun he => hbound ?_⟩
    have hright : Exact ('<' :: ('/' :: template ++ r')) t := by
      rw [hs, List.append_assoc] at he
      exact (exact_append.1 he).2
    exact hright.1 _ hafter
termination_by s.length

/-- In `c ++ t`, the tags of templates in `c` are whole and nested: stretches of text, elements
that are closed and elements that close themselves. -/
inductive Nested : List Char → List Char → Prop
  | text {s t : List Char} (hs : Loose s t) : Nested s t
  | void {s u c t : List Char} (hs : Loose s ('<' :: (u ++ (c ++ t)))) (hu : IsTag true u)
      (hrest : Loose u (c ++ t)) (hc : Nested c t) : Nested (s ++ ('<' :: (u ++ c))) t
  | element {s u b c t : List Char}
      (hs : Loose s ('<' :: (u ++ (b ++ (endTag template ++ (c ++ t)))))) (hu : IsTag false u)
      (hrest : Loose u (b ++ (endTag template ++ (c ++ t))))
      (hb : Nested b (endTag template ++ (c ++ t))) (hc : Nested c t) :
      Nested (s ++ ('<' :: (u ++ b) ++ endTag template ++ c)) t

example : Nested "<template><template-x/></template>".toList (endTag template) := by
  have htag : IsTag false (template ++ ['>']) :=
    ⟨['>'], _, rfl, .inr (.inr rfl), read?_plain isName_template [], rfl⟩
  exact .element (s := []) (b := "<template-x/>".toList) (c := []) trivial htag (by decide)
    (.text (by decide)) (.text trivial)

theorem IsTag.exact_iff {closes : Bool} {u : List Char} (hu : IsTag closes u) (s t : List Char) :
    Exact ('<' :: (u ++ s)) t ↔ Exact u (s ++ t) ∧ Exact s t := by
  have hnone := hu.after?_eq_none (s ++ t)
  rw [← List.append_assoc] at hnone
  rw [Exact, exact_append, and_iff_right]
  intro r hr
  exact absurd (hnone.symm.trans hr) (by simp)

theorem exact_endTag (t : List Char) : Exact (endTag template) t := by
  have hrest : Avoids ('<' :: '/' :: template) ('/' :: template ++ ['>']) t :=
    avoids_of_not_mem (by decide) t
  refine ⟨fun r hr => ?_, exact_of_avoids hrest⟩
  have heq : '<' :: '/' :: template ++ ['>'] ++ t = '<' :: '/' :: template ++ r :=
    after?_eq_some.1 hr
  rw [List.append_assoc, List.append_cancel_left_eq] at heq
  exact heq ▸ .inr (.inr rfl)

/-- A nested content closes nothing that was open before, unless an end tag in it goes on behind
the name. -/
theorem Nested.exists_closes {c t : List Char} (h : Nested c t) :
    ∃ k, Closes k c t ∧ (k = 0 ↔ Exact c t) := by
  induction h with
  | text hs => exact exists_closes_of_loose hs
  | @void s u c t hs hu hrest hc ih =>
    obtain ⟨i, hi, hie⟩ := exists_closes_of_loose hs
    obtain ⟨j, hj, hje⟩ := exists_closes_of_loose hrest
    obtain ⟨k, hk, hke⟩ := ih
    refine ⟨i + (j + k), Closes.append (by simpa using hi) ((hj.append hk).void hu), ?_⟩
    rw [exact_append, hu.exact_iff, ← hje, ← hke]
    simp only [List.cons_append, List.append_assoc, ← hie]
    omega
  | @element s u b c t hs hu hrest hb hc ihb ihc =>
    obtain ⟨i, hi, hie⟩ := exists_closes_of_loose hs
    obtain ⟨j, hj, hje⟩ := exists_closes_of_loose hrest
    obtain ⟨k, hk, hke⟩ := ihb
    obtain ⟨l, hl, hle⟩ := ihc
    have helement : Closes (j + k) ('<' :: (u ++ b) ++ endTag template) (c ++ t) :=
      (hj.append hk).element hu
    refine ⟨i + (j + k + l), Closes.append (by simpa using hi) (helement.append hl), ?_⟩
    rw [exact_append, exact_append, exact_append, hu.exact_iff, ← hje, ← hke, ← hle]
    simp only [List.cons_append, List.append_assoc, ← hie, exact_endTag, and_true]
    omega

theorem exact_iff_not_strays (c : List Char) :
    Exact c (endTag template) ↔ ¬ Strays template c := by
  constructor
  · rintro h ⟨p, r, rfl, hr⟩
    rw [List.append_assoc] at h
    have hbound : Bounded (r ++ endTag template) :=
      (exact_append.1 h).2.1 _ (after?_eq_some.2 (by simp))
    cases r with
    | nil =>
      revert hbound
      decide
    | cons d r => exact hr hbound
  · intro h
    induction c with
    | nil => trivial
    | cons d s ih =>
      refine ⟨fun r hr => ?_, ih ?_⟩
      · rcases List.append_eq_append_iff.1 (after?_eq_some.1 hr) with ⟨a, ha, hb⟩ | ⟨a, ha, hb⟩
        · cases a with
          | nil =>
            refine absurd ⟨[], [], ?_, id⟩ h
            simpa using ha.symm
          | cons x a =>
            -- the word would run into the end tag
            have hx : x = '<' := (List.cons.inj hb).1.symm
            simp only [List.cons_append, List.cons.injEq] at ha
            have hmem : '<' ∈ '/' :: template := by simp [ha.2, hx]
            exact absurd hmem (by decide)
        · have ha' : Bounded a :=
            Decidable.byContradiction fun hn => h ⟨[], a, by simpa using ha, hn⟩
          cases a with
          | nil => exact ha'.elim
          | cons x a => exact hb ▸ ha'
      · rintro ⟨p, r, rfl, hr⟩
        exact h ⟨d :: p, r, rfl, hr⟩

/-! ### Whole elements -/

/-- The element with nothing but its name in the tags is one block, which holds all of `c`. -/
def Whole (name c : List Char) : Prop :=
  ∃ b, split (String.ofList ('<' :: name ++ ['>'] ++ c ++ endTag name)) = ⟨[b], []⟩ ∧
    b.content = String.ofList c

theorem whole_iff_content? {name : List Char} (hname : IsName name) (c : List Char) :
    Whole name c ↔
      content? name (decide (name = template)) 0 (c ++ endTag name) = some (c, []) := by
  have hsplit := splitAt_read (read?_plain hname (c ++ endTag name)) 0
  simp only [Bool.false_eq_true, if_false, String.toList_ofList, beq_template] at hsplit
  rw [Whole, split, String.toList_ofList, List.append_assoc, hsplit]
  constructor
  · rintro ⟨b, hb, hcontent⟩
    split at hb
    · next body r h =>
      simp only [Parsed.cons, Parsed.mk.injEq, List.cons.injEq] at hb
      obtain ⟨⟨rfl, -⟩, -⟩ := hb
      obtain rfl := String.ofList_injective hcontent
      -- nothing is left behind the end tag
      obtain ⟨gap, hgap⟩ := eq_of_content? h
      have hlen := congrArg List.length hgap
      simp only [endTag, List.length_append, List.length_cons, List.length_nil] at hlen
      obtain rfl : r = [] := List.eq_nil_of_length_eq_zero (by omega)
      exact h
    · simp at hb
  · intro h
    rw [h]
    simp only [Parsed.cons, splitAt]
    exact ⟨_, rfl, rfl⟩

/-- An element that is no template ends at the first text that begins like its end tag. -/
theorem whole_iff_of_ne {name : List Char} (hname : IsName name) (hne : name ≠ template)
    (c : List Char) : Whole name c ↔ contains ('<' :: '/' :: name) c = false := by
  have hfirst : '<' ∉ name := not_mem_of_inner (inner_of_isName hname) (by simp)
  rw [whole_iff_content? hname, decide_eq_false hne]
  constructor
  · intro h
    refine Bool.eq_false_iff.2 fun hcontains => ?_
    obtain ⟨⟨b, u⟩, hcut⟩ := Option.isSome_iff_exists.1 hcontains
    simp only [content?_of_cut?, cut?_extend hcut, Option.bind_some, depthAfter,
      Bool.false_eq_true, if_false, Option.bind_eq_some_iff, Option.some.injEq,
      Prod.mk.injEq] at h
    obtain ⟨-, -, rfl, -⟩ := h
    have hlen := length_of_cut? hcut
    simp only [List.length_cons] at hlen
    omega
  · intro h
    simpa using content?_raw hfirst h []

/-- A template ends where its own end tag stands if its content closes nothing. -/
theorem whole_template_iff {c : List Char} {k : Nat} (hk : Closes k c (endTag template)) :
    Whole template c ↔ k = 0 := by
  have hend := content?_endTag template [] 0 true
  rw [List.append_nil] at hend
  rw [whole_iff_content? isName_template, decide_eq_true rfl]
  cases k with
  | zero =>
    refine iff_of_true ?_ rfl
    rw [(hk 0).1 (Nat.le_refl 0), hend]
    simp
  | succ k =>
    refine iff_of_false (fun h => ?_) (Nat.succ_ne_zero k)
    obtain ⟨b, r, hb, hlen⟩ := (hk 0).2 (Nat.succ_pos k)
    rw [h, Option.some.injEq, Prod.mk.injEq] at hb
    rw [← hb.2] at hlen
    simp [endTag] at hlen

/-- The content that an element may have if end tags are told by their names: none of its own, or
those of templates in a template, each with its open tag. -/
def Fits (name c : List Char) : Prop :=
  if name = template then Nested c (endTag template)
  else ∀ p r, c = p ++ '<' :: '/' :: name ++ r → ¬ Bounded r

/-- An element with such a content is one block with all of it if and only if no end tag in the
content begins with the name and goes on. -/
theorem whole_iff_not_strays {name c : List Char} (hname : IsName name) (hc : Fits name c) :
    Whole name c ↔ ¬ Strays name c := by
  by_cases hn : name = template
  · subst hn
    rw [Fits, if_pos rfl] at hc
    obtain ⟨k, hk, hexact⟩ := hc.exists_closes
    rw [whole_template_iff hk, hexact, exact_iff_not_strays]
  · rw [Fits, if_neg hn] at hc
    rw [whole_iff_of_ne hname hn, ← Bool.not_eq_true, contains_eq_true]
    refine not_congr ⟨?_, ?_⟩
    · rintro ⟨p, r, hp⟩
      exact ⟨p, r, hp, hc p r hp⟩
    · rintro ⟨p, r, hp, -⟩
      exact ⟨p, r, hp⟩

/-- A stray end tag that does not end by itself takes the place of the one it hides. -/
example : Whole template "<template></template-x </template>".toList ∧
    Strays template "<template></template-x </template>".toList := by
  refine ⟨(whole_iff_content? isName_template _).2 (by decide +kernel), ?_⟩
  exact ⟨"<template>".toList, "-x </template>".toList, by decide, by decide⟩

theorem not_whole_of_longer_name :
    ¬ Whole ['p'] "<pre></pre>".toList ∧ ¬ Whole template "<template-x></template-x>".toList := by
  constructor
  · have hname : IsName ['p'] := ⟨⟨'p', [], rfl, rfl⟩, List.forall_mem_singleton.2 ⟨rfl, rfl⟩⟩
    have hall : ∀ n < 9, ∀ r ∈ after? ['<', '/', 'p'] ("<pre></pre>".toList.drop n),
        ¬ Bounded r := by decide
    rw [whole_iff_not_strays hname, Classical.not_not]
    · exact ⟨"<pre>".toList, "re>".toList, by decide, by decide⟩
    · intro p r h
      have hlen : 11 = _ := congrArg List.length h
      simp only [List.length_append, List.length_cons, List.length_nil] at hlen
      refine hall p.length (by omega) r (after?_eq_some.2 ?_)
      rw [h]
      simp
  · rw [whole_iff_not_strays isName_template, Classical.not_not]
    · exact ⟨"<template-x>".toList, "-x>".toList, by decide, by decide⟩
    · exact .text (by decide)

end BlockLens.Markup
