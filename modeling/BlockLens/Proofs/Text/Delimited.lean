import BlockLens.Proofs.Text
/-!
Written forms that tell where they end. What is read of two such forms in a row can be told from
the row, so forms that are put together of such forms are themselves of this kind.
-/

set_option autoImplicit false

namespace BlockLens.Text

variable {α β : Type}

/-- What stands at the front of a text, and what follows it, is determined by the text. -/
def SelfDelimiting (f : α → List Char) : Prop :=
  ∀ a b r u, f a ++ r = f b ++ u → a = b ∧ r = u

namespace SelfDelimiting

variable {f : α → List Char} {g : β → List Char}

theorem injective (h : SelfDelimiting f) {a b : α} (heq : f a = f b) : a = b :=
  (h a b [] [] (by rw [heq])).1

theorem sign (h : SelfDelimiting f) (w : List Char) : SelfDelimiting fun a => w ++ f a := by
  intro a b r u heq
  rw [List.append_assoc, List.append_assoc] at heq
  exact h a b r u (List.append_cancel_left heq)

theorem close (h : SelfDelimiting f) (w : List Char) : SelfDelimiting fun a => f a ++ w := by
  intro a b r u heq
  rw [List.append_assoc, List.append_assoc] at heq
  obtain ⟨rfl, hrest⟩ := h a b _ _ heq
  exact ⟨rfl, List.append_cancel_left hrest⟩

theorem pair (hf : SelfDelimiting f) (hg : SelfDelimiting g) :
    SelfDelimiting fun p : α × β => f p.1 ++ g p.2 := by
  rintro ⟨a, b⟩ ⟨a', b'⟩ r u heq
  rw [List.append_assoc, List.append_assoc] at heq
  obtain ⟨rfl, hrest⟩ := hf a a' _ _ heq
  obtain ⟨rfl, htail⟩ := hg b b' _ _ hrest
  exact ⟨rfl, htail⟩

theorem comap (h : SelfDelimiting f) {i : β → α} (hi : ∀ b c, i b = i c → b = c) :
    SelfDelimiting fun b => f (i b) := by
  intro b c r u heq
  obtain ⟨hbc, hrest⟩ := h _ _ r u heq
  exact ⟨hi b c hbc, hrest⟩

theorem separated (h : SelfDelimiting f) {x y : Char} (hxy : x ≠ y) :
    SelfDelimiting fun l : List α => l.flatMap (fun a => x :: f a) ++ [y] := by
  intro l m r u heq
  induction l generalizing m with
  | nil =>
    cases m with
    | nil => exact ⟨rfl, (List.cons.inj heq).2⟩
    | cons b m => exact absurd (List.cons.inj heq).1.symm hxy
  | cons a l ih =>
    cases m with
    | nil => exact absurd (List.cons.inj heq).1 hxy
    | cons b m =>
      simp only [List.flatMap_cons, List.cons_append, List.append_assoc, List.cons.injEq,
        true_and] at heq
      obtain ⟨rfl, hrest⟩ := h a b _ _ heq
      obtain ⟨rfl, htail⟩ := ih m (by simpa using hrest)
      exact ⟨rfl, htail⟩

theorem intercalate (h : SelfDelimiting f) {x y z : Char} (hxy : x ≠ y) (hzy : z ≠ y)
    (hz : ∀ a, ∃ t, f a = z :: t) :
    SelfDelimiting fun l : List α => [x].intercalate (l.map f) ++ [y] := by
  have hempty : ∀ {a : α} {l : List α} {r u : List Char},
      [y] ++ r ≠ joined x (f a) (l.map f) ++ [y] ++ u := by
    intro a l r u heq
    obtain ⟨t, ht⟩ := hz a
    rw [joined, ht] at heq
    exact hzy (List.cons.inj heq).1.symm
  intro l m r u heq
  cases l with
  | nil =>
    cases m with
    | nil => exact ⟨rfl, (List.cons.inj heq).2⟩
    | cons b m =>
      simp only [List.map_cons, intercalate_cons] at heq
      exact absurd heq hempty
  | cons a l =>
    cases m with
    | nil =>
      simp only [List.map_cons, intercalate_cons] at heq
      exact absurd heq.symm hempty
    | cons b m =>
      simp only [List.map_cons, intercalate_cons, joined, List.flatMap_map, List.append_assoc]
        at heq
      obtain ⟨rfl, hrest⟩ := h a b _ _ heq
      obtain ⟨rfl, htail⟩ := h.separated hxy l m r u (by simpa using hrest)
      exact ⟨rfl, htail⟩

end SelfDelimiting

theorem selfDelimiting_numeral {c : Char} (hc : c.isDigit = false) :
    SelfDelimiting fun n => Nat.toDigits 10 n ++ [c] := by
  have hrun : ∀ n r, (Nat.toDigits 10 n ++ [c] ++ r).takeWhile Char.isDigit = Nat.toDigits 10 n := by
    intro n r
    have hdigits : ∀ d ∈ Nat.toDigits 10 n, d.isDigit = true :=
      fun d hd => Nat.isDigit_of_mem_toDigits (by decide) (by decide) hd
    rw [List.append_assoc, List.takeWhile_append_of_pos hdigits, List.singleton_append,
      List.takeWhile_cons, hc]
    simp
  intro m n r u heq
  have hmn : Nat.toDigits 10 m = Nat.toDigits 10 n := by
    rw [← hrun m r, ← hrun n u]
    exact congrArg _ heq
  obtain rfl := toDigits_injective hmn
  exact ⟨rfl, List.append_cancel_left heq⟩

end BlockLens.Text
