import BlockLens.Workspace

set_option autoImplicit false

namespace BlockLens

open Text

theorem Text.lines_ne_nil (s : List Char) : lines s ≠ [] := by
  fun_induction lines s <;> simp_all

theorem Text.length_lines_le (s : List Char) : (lines s).length ≤ s.length + 1 := by
  fun_induction lines s with
  | case1 => simp
  | case2 s ih => simp only [List.length_cons]; omega
  | case3 c s _ _ ih => simp only [List.length_cons]; omega
  | case4 c s _ _ h ih => simp
  | case5 c s _ _ l ls h ih => rw [h] at ih; simp only [List.length_cons] at ih ⊢; omega

namespace Position

def InBounds (p : Position) (s : List Char) : Prop :=
  ∃ l, (lines s)[p.line]? = some l ∧ p.character ≤ l.length

def index (p : Position) (s : List Char) : Nat :=
  ((lines s).take p.line).flatten.length + p.character

def Precedes (p q : Position) : Prop :=
  p.line < q.line ∨ p.line = q.line ∧ p.character ≤ q.character

variable {p q : Position} {s : List Char}

theorem index?_eq_some {i : Nat} : p.index? s = some i ↔ p.InBounds s ∧ p.index s = i := by
  unfold index? InBounds index
  dsimp only
  cases h : (lines s)[p.line]? with
  | none => simp
  | some l =>
    by_cases hl : p.character ≤ l.length
    · simp [hl]
    · simp [hl]

theorem length_flatten_take_le {ls : List (List Char)} {m n : Nat} {l : List Char}
    (hl : ls[m]? = some l) (h : m < n) :
    (ls.take m).flatten.length + l.length ≤ (ls.take n).flatten.length := by
  have hstep : ls.take (m + 1) = ls.take m ++ [l] := by rw [List.take_add_one, hl]; rfl
  obtain ⟨u, hu⟩ : ls.take (m + 1) <+: ls.take n := List.take_prefix_take_left (by omega)
  rw [← hu, hstep]
  simp only [List.flatten_append, List.flatten_cons, List.flatten_nil, List.append_nil,
    List.length_append]
  omega

theorem index_le_of_precedes (hp : p.InBounds s) (h : p.Precedes q) : p.index s ≤ q.index s := by
  obtain ⟨l, hl, hle⟩ := hp
  unfold index
  rcases h with h | ⟨h, hc⟩
  · have := length_flatten_take_le hl h
    omega
  · rw [h]
    omega

/-- Each place of a text that is cut into lines lies in one of them. -/
theorem exists_flatten_take_add {ls : List (List Char)} (hne : ls ≠ []) {i : Nat}
    (hi : i ≤ ls.flatten.length) :
    ∃ n l k, ls[n]? = some l ∧ k ≤ l.length ∧ (ls.take n).flatten.length + k = i := by
  induction ls generalizing i with
  | nil => contradiction
  | cons l ls ih =>
    by_cases hl : i ≤ l.length
    · exact ⟨0, l, i, rfl, hl, by simp⟩
    · rw [List.flatten_cons, List.length_append] at hi
      have hls : ls ≠ [] := by
        rintro rfl
        simp only [List.flatten_nil, List.length_nil] at hi
        omega
      obtain ⟨n, l', k, hn, hk, hsum⟩ := ih hls (i := i - l.length) (by omega)
      refine ⟨n + 1, l', k, by simpa using hn, hk, ?_⟩
      rw [List.take_succ_cons, List.flatten_cons, List.length_append]
      omega

theorem exists_index {i : Nat} (hi : i ≤ s.length) :
    ∃ p : Position, p.InBounds s ∧ p.index s = i ∧ p.line ≤ s.length ∧ p.character ≤ s.length := by
  obtain ⟨n, l, k, hn, hk, hsum⟩ :=
    exists_flatten_take_add (lines_ne_nil s) (i := i) (by rwa [flatten_lines])
  have hlt := (List.getElem?_eq_some_iff.1 hn).1
  have hlines := length_lines_le s
  exact ⟨⟨n, k⟩, ⟨l, hn, hk⟩, hsum, by simp only; omega, by simp only; omega⟩

end Position

namespace Change

def Fits (c : Change) (s : List Char) : Prop :=
  ∀ p q, c.range = some (p, q) → p.InBounds s ∧ q.InBounds s ∧ p.index s ≤ q.index s

def result (c : Change) (s : List Char) : List Char :=
  match c.range with
  | none => c.text.toList
  | some (p, q) => s.take (p.index s) ++ c.text.toList ++ s.drop (q.index s)

theorem apply_eq_ok {c : Change} {s t : List Char} :
    c.apply s = .ok t ↔ c.Fits s ∧ t = c.result s := by
  unfold apply Fits result
  cases hr : c.range with
  | none => simp [eq_comm]
  | some r =>
    obtain ⟨p, q⟩ := r
    simp only [Option.some.injEq, Prod.mk.injEq, and_imp]
    constructor
    · intro h
      split at h
      · contradiction
      · contradiction
      · next i j hi hj =>
        obtain ⟨hp, rfl⟩ := Position.index?_eq_some.1 hi
        obtain ⟨hq, rfl⟩ := Position.index?_eq_some.1 hj
        split at h
        · contradiction
        · next hle =>
          refine ⟨?_, (Except.ok.inj h).symm⟩
          rintro _ _ rfl rfl
          exact ⟨hp, hq, by omega⟩
    · rintro ⟨hfit, rfl⟩
      obtain ⟨hp, hq, hle⟩ := hfit p q rfl rfl
      rw [Position.index?_eq_some.2 ⟨hp, rfl⟩, Position.index?_eq_some.2 ⟨hq, rfl⟩]
      simp only [show ¬ q.index s < p.index s by omega, if_false]

end Change

def after (changes : List Change) (s : List Char) : List Char :=
  changes.foldl (fun t c => c.result t) s

def AllFit (changes : List Change) (s : List Char) : Prop :=
  ∀ done c rest, changes = done ++ c :: rest → c.Fits (after done s)

theorem allFit_cons {c : Change} {changes : List Change} {s : List Char} :
    AllFit (c :: changes) s ↔ c.Fits s ∧ AllFit changes (c.result s) := by
  constructor
  · intro h
    refine ⟨h [] c changes rfl, fun done d rest hd => ?_⟩
    exact h (c :: done) d rest (by rw [hd, List.cons_append])
  · rintro ⟨hc, h⟩ done d rest hd
    cases done with
    | nil =>
      obtain ⟨rfl, -⟩ := List.cons.inj hd
      exact hc
    | cons e done =>
      obtain ⟨rfl, htail⟩ := List.cons.inj hd
      exact h done d rest htail

theorem applyAll_eq_ok {changes : List Change} {s t : List Char} :
    applyAll changes s = .ok t ↔ AllFit changes s ∧ t = after changes s := by
  induction changes generalizing s with
  | nil => simp [applyAll, AllFit, after, eq_comm]
  | cons c changes ih =>
    rw [applyAll, allFit_cons]
    cases hc : c.apply s with
    | ok u =>
      obtain ⟨hfit, rfl⟩ := Change.apply_eq_ok.1 hc
      simp only [ih, hfit, true_and, after, List.foldl_cons]
    | error e =>
      have hfit : ¬ c.Fits s := fun h => by
        rw [Change.apply_eq_ok.2 ⟨h, rfl⟩] at hc
        contradiction
      simp [hfit]

namespace Source

def Admits (s : Source) (changes : List Change) (version : Int) : Prop :=
  s.version < version ∧ AllFit changes s.text.toList

def edited (s : Source) (changes : List Change) (version : Int) : Source :=
  ⟨String.ofList (after changes s.text.toList), version⟩

variable {s : Source} {changes : List Change} {version : Int}

theorem edit_eq_ok {t : Source} :
    s.edit changes version = .ok t ↔
      s.Admits changes version ∧ t = s.edited changes version := by
  unfold edit Admits edited
  by_cases hv : version ≤ s.version
  · have hlt : ¬ s.version < version := by omega
    simp [hv, hlt]
  · have hlt : s.version < version := by omega
    simp only [hv, if_false, hlt, true_and]
    cases happly : applyAll changes s.text.toList with
    | ok u =>
      obtain ⟨hfit, rfl⟩ := applyAll_eq_ok.1 happly
      simp [hfit, eq_comm]
    | error e =>
      have hfit : ¬ AllFit changes s.text.toList := fun h => by
        rw [applyAll_eq_ok.2 ⟨h, rfl⟩] at happly
        contradiction
      simp [hfit]

theorem exists_edit_eq_error (h : ¬ s.Admits changes version) :
    ∃ e, s.edit changes version = .error e := by
  cases he : s.edit changes version with
  | ok t => exact absurd (edit_eq_ok.1 he).1 h
  | error e => exact ⟨e, rfl⟩

theorem admits_single {p q : Position} (hp : p.InBounds s.text.toList)
    (hq : q.InBounds s.text.toList) (h : p.Precedes q) (hv : s.version < version) (t : String) :
    s.Admits [⟨some (p, q), t⟩] version := by
  refine ⟨hv, allFit_cons.2 ⟨?_, ?_⟩⟩
  · rintro _ _ ⟨⟩
    exact ⟨hp, hq, Position.index_le_of_precedes hp h⟩
  · rintro done c rest hnil
    simp at hnil

/-- What an edit does to a text by itself, to a document over it, and to a text that several
documents share; and that positions reach every place in order. -/
theorem edit_whole_or_nothing (s : Source) (changes : List Change) (version : Int) :
    (∀ t, s.edit changes version = .ok t ↔
      s.Admits changes version ∧ t = s.edited changes version) ∧
    (∀ c : Composite,
      (s.Admits changes version →
        Document.update changes version ⟨s, c⟩ =
          (.ok (), ⟨s.edited changes version, { c with dirty := true }⟩)) ∧
      (¬ s.Admits changes version →
        ∃ e, Document.update changes version ⟨s, c⟩ = (.error e, ⟨s, c⟩))) ∧
    (∀ (w : Workspace) (n : Nat), w.sources[n]? = some s →
      (s.Admits changes version →
        w.editSource n changes version =
          (.ok (), { w with sources := w.sources.set n (s.edited changes version) })) ∧
      (¬ s.Admits changes version → ∃ e, w.editSource n changes version = (.error e, w))) ∧
    (∀ p q : Position, p.InBounds s.text.toList → q.InBounds s.text.toList → p.Precedes q →
      p.index s.text.toList ≤ q.index s.text.toList ∧
      ∀ t newer, s.version < newer → ∃ u, s.edit [⟨some (p, q), t⟩] newer = .ok u) ∧
    (s.text.length < UInt32.size → ∀ i ≤ s.text.length, ∃ p : Position,
      p.line < UInt32.size ∧ p.character < UInt32.size ∧
        p.InBounds s.text.toList ∧ p.index s.text.toList = i) := by
  refine ⟨fun t => edit_eq_ok, fun c => ⟨fun h => ?_, fun h => ?_⟩,
    fun w n hn => ⟨fun h => ?_, fun h => ?_⟩, fun p q hp hq h => ⟨?_, fun t newer hv => ?_⟩,
    fun hlen i hi => ?_⟩
  · simp only [Document.update, edit_eq_ok.2 ⟨h, rfl⟩, Document.markDirty]
  · obtain ⟨e, he⟩ := exists_edit_eq_error h
    exact ⟨e, by simp only [Document.update, he]⟩
  · simp only [Workspace.editSource, hn, edit_eq_ok.2 ⟨h, rfl⟩]
  · obtain ⟨e, he⟩ := exists_edit_eq_error h
    exact ⟨e, by simp only [Workspace.editSource, hn, he]⟩
  · exact Position.index_le_of_precedes hp h
  · exact ⟨_, edit_eq_ok.2 ⟨admits_single hp hq h hv t, rfl⟩⟩
  · rw [← String.length_toList] at hlen hi
    obtain ⟨p, hp, hindex, hline, hcharacter⟩ := Position.exists_index hi
    exact ⟨p, by omega, by omega, hp, hindex⟩

/-- Behind a return and a line feed there is one new line, and behind each of them alone as well. -/
example : let s := "a\r\nb\rc\nd".toList
    (⟨1, 0⟩ : Position).index? s = some 3 ∧ (⟨0, 2⟩ : Position).index? s = some 2 ∧
      (⟨3, 1⟩ : Position).index? s = some 8 ∧ (⟨3, 2⟩ : Position).index? s = none := by
  decide

end Source

end BlockLens
