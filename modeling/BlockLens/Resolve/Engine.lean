
set_option autoImplicit false

namespace BlockLens

structure Extent where
  start : Nat
  length : Nat
  deriving DecidableEq, Repr

def Extent.placeholder : Extent := ⟨0, 1⟩

def Extent.stop (e : Extent) : Nat := e.start + e.length

structure Definition where
  file : String
  extent : Extent
  context : Option Extent := none
  name : String := ""
  kind : String := ""
  container : String := ""
  deriving DecidableEq, Repr

structure Bound where
  definitions : List Definition
  extent : Extent
  deriving DecidableEq, Repr

abbrev Place := String × Nat

structure Engine where
  definitions : List (Place × List Definition) := []
  bounds : List (Place × Bound) := []
  deriving DecidableEq, Repr

namespace Engine

def definitionsAt? (e : Engine) (p : Place) : Option (List Definition) := e.definitions.lookup p

def boundAt? (e : Engine) (p : Place) : Option Bound := e.bounds.lookup p

def unvisited (e : Engine) (visited : List Place) : Nat :=
  (e.definitions.filter fun a => !visited.contains a.1).length

theorem unvisited_cons_lt {e : Engine} {p : Place} {visited : List Place} {l : List Definition}
    (h : e.definitionsAt? p = some l) (hv : visited.contains p = false) :
    e.unvisited (p :: visited) < e.unvisited visited := by
  unfold unvisited definitionsAt? at *
  have sub : ∀ t : List (Place × List Definition),
      (t.filter fun a => !(p :: visited).contains a.1).length ≤
        (t.filter fun a => !visited.contains a.1).length := by
    intro t
    rw [← List.countP_eq_length_filter, ← List.countP_eq_length_filter]
    refine List.countP_mono_left fun a _ ha => ?_
    simp only [List.contains_cons, Bool.not_or, Bool.and_eq_true] at ha
    exact ha.2
  generalize e.definitions = table at h ⊢
  induction table with
  | nil => simp at h
  | cons a t ih =>
    obtain ⟨k, v⟩ := a
    rw [List.lookup_cons] at h
    by_cases hp : p = k
    · subst hp
      have hs := sub t
      have h1 : p ∉ visited := by simpa using hv
      simp [h1]
      simp at hs
      omega
    · have hb : (p == k) = false := by simpa using hp
      simp only [hb] at h
      have := ih h
      have ha : (k == p) = false := by simpa using fun h => hp h.symm
      simp only [List.filter_cons, List.contains_cons, ha, Bool.false_or] at *
      split <;> simp_all

end Engine

end BlockLens
