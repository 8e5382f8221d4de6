import BlockLens.Proofs.Markup.Nesting
import Mathlib.Data.List.TakeWhile
/-!
What the reader of tags meets between the name and the end of a tag, stretch by stretch: blanks,
stray characters and attributes, each with the blanks around its equals sign.
-/

set_option autoImplicit false

namespace BlockLens.Tag

open Text Markup

/-- A stretch of a tag. The `sign` is the equals sign with the blanks on both sides of it. -/
inductive Stretch where
  | gap (blanks : List Char)
  | stray (c : Char)
  | bare (key : List Char)
  | plain (key sign value : List Char)
  | quoted (key sign : List Char) (mark : Char) (value : List Char)
  deriving DecidableEq, Repr

namespace Stretch

def print : Stretch → List Char
  | .gap blanks => blanks
  | .stray c => [c]
  | .bare key => key
  | .plain key sign value => key ++ sign ++ value
  | .quoted key sign mark value => key ++ sign ++ mark :: value ++ [mark]

def pair? : Stretch → Option (String × String)
  | .gap _ | .stray _ => none
  | .bare key => some (String.ofList key, "true")
  | .plain key _ value | .quoted key _ _ value => some (String.ofList key, String.ofList value)

def addTo (acc : Attributes) (p : Stretch) : Attributes :=
  p.pair?.elim acc fun e => acc.insert e.1 e.2

end Stretch

def valuedStretch? (key sign : List Char) : List Char → Option (Stretch × List Char)
  | [] => some (.plain key sign [], [])
  | c :: s =>
    if isQuote c then (cut? [c] s).map fun p => (.quoted key sign c p.1, p.2)
    else some (.plain key sign ((c :: s).takeWhile isValueChar), (c :: s).dropWhile isValueChar)

def keyedStretch? (key s : List Char) : Option (Stretch × List Char) :=
  match s.dropWhile isBlank with
  | '=' :: t =>
    valuedStretch? key (s.takeWhile isBlank ++ '=' :: t.takeWhile isBlank) (t.dropWhile isBlank)
  | _ => some (.bare key, s)

def stretch? : List Char → Option (Stretch × List Char)
  | [] => none
  | '>' :: _ => none
  | '/' :: '>' :: _ => none
  | c :: s =>
    if isBlank c then some (.gap ((c :: s).takeWhile isBlank), (c :: s).dropWhile isBlank)
    else if isKeyChar c then
      keyedStretch? ((c :: s).takeWhile isKeyChar) ((c :: s).dropWhile isKeyChar)
    else some (.stray c, s)

def IsSign (sign : List Char) : Prop :=
  ∃ a b, sign = a ++ '=' :: b ∧ (∀ c ∈ a, isBlank c = true) ∧ ∀ c ∈ b, isBlank c = true

/-- The stretch stands at the front of a text, and the reader leaves what follows it. -/
inductive Meets : List Char → Stretch → List Char → Prop
  | gap {u t : List Char} (hne : u ≠ []) (hu : ∀ c ∈ u, isBlank c = true) : Meets (u ++ t) (.gap u) t
  | stray {c : Char} {t : List Char} (hc : c = '=' ∨ c = '/') : Meets (c :: t) (.stray c) t
  | bare {k t : List Char} (hne : k ≠ []) (hk : ∀ c ∈ k, isKeyChar c = true)
    (ht : ∀ c ∈ t.head?, isKeyChar c = false ∧ c ≠ '=') : Meets (k ++ t) (.bare k) t
  | plain {k sign v t : List Char} (hne : k ≠ []) (hk : ∀ c ∈ k, isKeyChar c = true)
    (hsign : IsSign sign) (hv : ∀ c ∈ v, isValueChar c = true)
    (hmark : ∀ c ∈ (v ++ t).head?, isQuote c = false)
    (ht : ∀ c ∈ t.head?, isValueChar c = false) : Meets (k ++ sign ++ v ++ t) (.plain k sign v) t
  | quoted {k sign v t : List Char} {q : Char} (hne : k ≠ []) (hk : ∀ c ∈ k, isKeyChar c = true)
    (hsign : IsSign sign) (hq : isQuote q = true) (hv : q ∉ v) :
    Meets (k ++ sign ++ q :: v ++ q :: t) (.quoted k sign q v) t

theorem Meets.eq_append {s r : List Char} {p : Stretch} (h : Meets s p r) : s = p.print ++ r := by
  cases h <;> simp [Stretch.print]

theorem Meets.length_lt {s r : List Char} {p : Stretch} (h : Meets s p r) : r.length < s.length := by
  cases h with
  | gap hne | bare hne | plain hne | quoted hne =>
    have := List.length_pos_iff.2 hne
    simp
    omega
  | stray => simp

theorem head?_dropWhile {p : Char → Bool} {s : List Char} {c : Char}
    (h : c ∈ (s.dropWhile p).head?) : p c = false := by
  have hnot := List.head?_dropWhile_not p s
  rwa [Option.mem_def.1 h] at hnot

theorem meets_of_valuedStretch? {k sign s r : List Char} {p : Stretch} (hne : k ≠ [])
    (hk : ∀ c ∈ k, isKeyChar c = true) (hsign : IsSign sign)
    (h : valuedStretch? k sign s = some (p, r)) : Meets (k ++ sign ++ s) p r := by
  cases s with
  | nil =>
    obtain ⟨rfl, rfl⟩ := Prod.mk.inj (Option.some.inj h)
    have hplain := Meets.plain (v := []) (t := []) hne hk hsign (by simp) (by simp) (by simp)
    rwa [List.append_nil] at hplain
  | cons c s =>
    rw [valuedStretch?] at h
    by_cases hq : isQuote c = true
    · simp only [hq, if_true, Option.map_eq_some_iff, Prod.mk.injEq] at h
      obtain ⟨⟨v, w⟩, hv, rfl, rfl⟩ := h
      have hquoted := Meets.quoted (t := w) hne hk hsign hq (not_mem_of_avoids (avoids_of_cut? hv))
      rwa [List.append_assoc, List.cons_append, show v ++ c :: w = s by simp [eq_of_cut? hv]]
        at hquoted
    · rw [if_neg hq] at h
      obtain ⟨rfl, rfl⟩ := Prod.mk.inj (Option.some.inj h)
      have htext := List.takeWhile_append_dropWhile (p := isValueChar) (l := c :: s)
      have hplain := Meets.plain (v := (c :: s).takeWhile isValueChar)
        (t := (c :: s).dropWhile isValueChar) hne hk hsign (fun _ hd => List.mem_takeWhile_imp hd)
        (by rw [htext]; rintro _ ⟨⟩; exact Bool.eq_false_iff.2 hq) fun _ => head?_dropWhile
      rwa [List.append_assoc, htext] at hplain

theorem meets_of_keyedStretch? {k s r : List Char} {p : Stretch} (hne : k ≠ [])
    (hk : ∀ c ∈ k, isKeyChar c = true) (hs : ∀ c ∈ s.head?, isKeyChar c = false)
    (h : keyedStretch? k s = some (p, r)) : Meets (k ++ s) p r := by
  unfold keyedStretch? at h
  split at h
  · next t ht =>
    have hsign : IsSign (s.takeWhile isBlank ++ '=' :: t.takeWhile isBlank) :=
      ⟨_, _, rfl, fun _ hd => List.mem_takeWhile_imp hd, fun _ hd => List.mem_takeWhile_imp hd⟩
    have hbefore := List.takeWhile_append_dropWhile (p := isBlank) (l := s)
    have hbehind := List.takeWhile_append_dropWhile (p := isBlank) (l := t)
    have hmeets := meets_of_valuedStretch? hne hk hsign h
    rwa [List.append_assoc, List.append_assoc, List.cons_append, hbehind, ← ht, hbefore] at hmeets
  · next hnone =>
    obtain ⟨rfl, rfl⟩ := Prod.mk.inj (Option.some.inj h)
    refine .bare hne hk fun c hc => ⟨hs c hc, ?_⟩
    rintro rfl
    obtain ⟨t, rfl⟩ := List.head?_eq_some_iff.1 (Option.mem_def.1 hc)
    exact hnone t rfl

theorem meets_of_stretch? {s r : List Char} {p : Stretch} (h : stretch? s = some (p, r)) :
    Meets s p r := by
  unfold stretch? at h
  split at h
  · contradiction
  · contradiction
  · contradiction
  · next c s hgt hslash =>
    split at h
    · next hc =>
      obtain ⟨rfl, rfl⟩ := Prod.mk.inj (Option.some.inj h)
      have hgap := Meets.gap (u := (c :: s).takeWhile isBlank) (t := (c :: s).dropWhile isBlank)
        (by simp [hc]) fun _ hd => List.mem_takeWhile_imp hd
      rwa [List.takeWhile_append_dropWhile] at hgap
    · next hblank =>
      split at h
      · next hc =>
        have hkey := meets_of_keyedStretch? (k := (c :: s).takeWhile isKeyChar) (by simp [hc])
          (fun _ hd => List.mem_takeWhile_imp hd) (fun _ => head?_dropWhile) h
        rwa [List.takeWhile_append_dropWhile] at hkey
      · next hc =>
        obtain ⟨rfl, rfl⟩ := Prod.mk.inj (Option.some.inj h)
        refine .stray ?_
        simpa [isKeyChar, hblank, show c ≠ '>' from hgt, or_iff_not_imp_left] using hc

def stretches (s : List Char) : List Stretch :=
  match _h : stretch? s with
  | none => []
  | some (p, r) => p :: stretches r
termination_by s.length
decreasing_by exact (meets_of_stretch? _h).length_lt

theorem stretches_of_some {s r : List Char} {p : Stretch} (h : stretch? s = some (p, r)) :
    stretches s = p :: stretches r := by
  rw [stretches]
  split
  · next h' => simp [h] at h'
  · next h' =>
    obtain ⟨rfl, rfl⟩ := Prod.mk.inj (Option.some.inj (h.symm.trans h'))
    rfl

theorem stretches_of_none {s : List Char} (h : stretch? s = none) : stretches s = [] := by
  rw [stretches]
  split
  · rfl
  · next h' => simp [h] at h'

theorem meets_of_stretches {s : List Char} {p : Stretch} {ps : List Stretch}
    (h : stretches s = p :: ps) : ∃ r, Meets s p r ∧ stretches r = ps := by
  cases hs : stretch? s with
  | none => simp [stretches_of_none hs] at h
  | some q =>
    rw [stretches_of_some hs] at h
    obtain ⟨rfl, rfl⟩ := List.cons.inj h
    exact ⟨q.2, meets_of_stretch? hs, rfl⟩

theorem stretches_append {s : List Char} {before after : List Stretch}
    (h : stretches s = before ++ after) :
    ∃ t, s = before.flatMap Stretch.print ++ t ∧ stretches t = after := by
  induction before generalizing s with
  | nil => exact ⟨s, rfl, h⟩
  | cons p before ih =>
    obtain ⟨r, hmeets, hr⟩ := meets_of_stretches h
    obtain ⟨t, rfl, ht⟩ := ih hr
    exact ⟨t, by simp [hmeets.eq_append], ht⟩

def seen : Option (Stretch × List Char) → Item
  | none => .broken
  | some (.gap _, r) | some (.stray _, r) => .stray r
  | some (.bare key, r) => .bare key r
  | some (.plain key _ value, r) | some (.quoted key _ _ value, r) => .valued key value r

theorem seen_valuedStretch? (key sign s : List Char) :
    seen (valuedStretch? key sign s) =
      match value? s with
      | some (v, r) => .valued key v r
      | none => .broken := by
  cases s with
  | nil => rfl
  | cons c s =>
    by_cases hq : isQuote c = true
    · simp only [valuedStretch?, value?, hq, if_true]
      cases cut? [c] s <;> rfl
    · rw [valuedStretch?, value?, if_neg hq, if_neg hq]
      rfl

theorem seen_keyedStretch? (key s : List Char) : seen (keyedStretch? key s) = keyed key s := by
  unfold keyedStretch?
  split
  · next t ht =>
    rw [keyed, ht]
    exact seen_valuedStretch? key _ _
  · next hnone => exact (keyed_bare hnone).symm

theorem rest?_gap (acc : Attributes) {u : List Char} (hu : ∀ c ∈ u, isBlank c = true) (t : List Char) :
    rest? acc (u ++ t) = rest? acc t := by
  have hdrop : (u ++ t).dropWhile isBlank = t.dropWhile isBlank := List.dropWhile_append_of_pos hu
  rw [rest?_eq acc hdrop, rest?_eq acc rfl]

theorem rest?_of_stretch? (acc : Attributes) {s r : List Char} {p : Stretch}
    (h : stretch? s = some (p, r)) : rest? acc s = rest? (p.addTo acc) r := by
  unfold stretch? at h
  split at h
  · contradiction
  · contradiction
  · contradiction
  · next c s hgt hslash =>
    split at h
    · obtain ⟨rfl, rfl⟩ := Prod.mk.inj (Option.some.inj h)
      have hgap := rest?_gap acc (u := (c :: s).takeWhile isBlank)
        (fun _ hd => List.mem_takeWhile_imp hd) ((c :: s).dropWhile isBlank)
      rwa [List.takeWhile_append_dropWhile] at hgap
    · next hblank =>
      have hdrop : (c :: s).dropWhile isBlank = c :: s := by simp [hblank]
      rw [rest?_eq acc hdrop]
      split at h
      · next hc =>
        rw [item_of_isKeyChar hc, ← seen_keyedStretch?, h]
        cases p <;> rfl
      · next hc =>
        obtain ⟨rfl, rfl⟩ := Prod.mk.inj (Option.some.inj h)
        rw [item_other hgt fun he hs => ?_, if_neg hc]
        · rfl
        · obtain ⟨t, rfl⟩ := List.head?_eq_some_iff.1 hs
          exact hslash t he rfl

theorem rest?_of_none {acc a : Attributes} {b : Bool} {s r : List Char} (h : stretch? s = none)
    (hr : rest? acc s = some (a, b, r)) : a = acc ∧ s = Opening.ending b ++ r := by
  unfold stretch? at h
  split at h
  · rw [rest?_eq acc rfl] at hr
    contradiction
  · next t =>
    have hstep : rest? acc ('>' :: t) = some (acc, false, t) := rest?_eq acc rfl
    obtain ⟨rfl, rfl, rfl⟩ : acc = a ∧ false = b ∧ t = r := by simpa [hstep] using hr
    exact ⟨rfl, rfl⟩
  · next t =>
    have hstep : rest? acc ('/' :: '>' :: t) = some (acc, true, t) := rest?_eq acc rfl
    obtain ⟨rfl, rfl, rfl⟩ : acc = a ∧ true = b ∧ t = r := by simpa [hstep] using hr
    exact ⟨rfl, rfl⟩
  · next c s hgt hslash =>
    split at h
    · contradiction
    · next hblank =>
      split at h
      · next hc =>
        have hdrop : (c :: s).dropWhile isBlank = c :: s := by simp [hblank]
        rw [rest?_eq acc hdrop, item_of_isKeyChar hc, ← seen_keyedStretch?, h] at hr
        contradiction
      · contradiction

/-- The stretches and the end make up the tag, and their pairs its bag. -/
theorem rest?_stretches {acc a : Attributes} {b : Bool} {s r : List Char}
    (h : rest? acc s = some (a, b, r)) :
    s = (stretches s).flatMap Stretch.print ++ (Opening.ending b ++ r) ∧
      a = ((stretches s).filterMap Stretch.pair?).foldl (fun a p => a.insert p.1 p.2) acc := by
  fun_induction stretches s generalizing acc with
  | case1 s hs =>
    obtain ⟨rfl, hend⟩ := rest?_of_none hs h
    exact ⟨hend, rfl⟩
  | case2 s p u hs ih =>
    rw [rest?_of_stretch? acc hs] at h
    obtain ⟨htext, hbag⟩ := ih h
    refine ⟨?_, ?_⟩
    · rw [List.flatMap_cons, List.append_assoc, ← htext]
      exact (meets_of_stretch? hs).eq_append
    · rw [hbag, List.filterMap_cons, Stretch.addTo]
      cases p.pair? <;> rfl

def writtenName (s : List Char) : List Char := (s.drop 1).takeWhile isNameChar

def behindName (s : List Char) : List Char := (s.drop 1).dropWhile isNameChar

def met (s : List Char) : List Stretch := stretches (behindName s)

theorem read?_eq_some {s r : List Char} {t : Tag} (h : read? s = some (t, r)) :
    s = '<' :: writtenName s ++ behindName s ∧ (∃ c u, s = '<' :: c :: u ∧ isNameStart c = true) ∧
      rest? (.ofList []) (behindName s) = some (t.attrs, t.selfClosing, r) := by
  unfold read? at h
  split at h
  · next c s =>
    split at h
    · next hc =>
      simp only [Option.map_eq_some_iff, Prod.mk.injEq] at h
      obtain ⟨⟨a, b, r'⟩, hr, rfl, rfl⟩ := h
      refine ⟨?_, ⟨c, s, rfl, hc⟩, hr⟩
      simp only [writtenName, behindName, List.drop_one, List.tail_cons, List.cons_append,
        List.takeWhile_append_dropWhile]
    · contradiction
  · contradiction

theorem read?_met {s r : List Char} {t : Tag} (h : read? s = some (t, r)) :
    s = '<' :: writtenName s ++ ((met s).flatMap Stretch.print ++ (Opening.ending t.selfClosing ++ r)) ∧
      t.attrs = .ofList ((met s).filterMap Stretch.pair?) := by
  obtain ⟨hname, -, hr⟩ := read?_eq_some h
  obtain ⟨htext, hbag⟩ := rest?_stretches hr
  exact ⟨by rwa [met, ← htext], hbag⟩

theorem read?_stretch {s r : List Char} {t : Tag} (h : read? s = some (t, r))
    {before after : List Stretch} {p : Stretch} (hmet : met s = before ++ p :: after) :
    ∃ u w, s = '<' :: writtenName s ++ before.flatMap Stretch.print ++ u ∧ Meets u p w := by
  obtain ⟨u, hu, hrest⟩ := stretches_append hmet
  obtain ⟨w, hmeets, -⟩ := meets_of_stretches hrest
  refine ⟨u, w, ?_, hmeets⟩
  rw [List.append_assoc, ← hu]
  exact (read?_eq_some h).1

end BlockLens.Tag
