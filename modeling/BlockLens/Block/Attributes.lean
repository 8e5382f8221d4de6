
set_option autoImplicit false

namespace BlockLens

structure Attributes where
  entries : List (String × String) := []
  sorted : entries.Pairwise (·.1 < ·.1) := by simp
  deriving DecidableEq, Repr

namespace Attributes

def place (k v : String) : List (String × String) → List (String × String)
  | [] => [(k, v)]
  | e :: r => if k < e.1 then (k, v) :: e :: r else if k = e.1 then (k, v) :: r else e :: place k v r

theorem mem_place {k v : String} {l : List (String × String)} {e : String × String}
    (h : e ∈ place k v l) : e = (k, v) ∨ e ∈ l := by
  induction l with
  | nil => simpa [place] using h
  | cons a r ih =>
    simp only [place] at h
    split at h
    · simpa using h
    · split at h
      · simp only [List.mem_cons] at h ⊢
        rcases h with h | h
        · exact .inl h
        · exact .inr (.inr h)
      · simp only [List.mem_cons] at h ⊢
        rcases h with h | h
        · exact .inr (.inl h)
        · rcases ih h with h | h
          · exact .inl h
          · exact .inr (.inr h)

theorem sorted_place (k v : String) {l : List (String × String)}
    (h : l.Pairwise (·.1 < ·.1)) : (place k v l).Pairwise (·.1 < ·.1) := by
  induction l with
  | nil => simp [place]
  | cons a r ih =>
    obtain ⟨ha, hr⟩ := List.pairwise_cons.1 h
    simp only [place]
    split
    · next hk =>
      refine List.pairwise_cons.2 ⟨fun e he => ?_, h⟩
      rcases List.mem_cons.1 he with rfl | he
      · exact hk
      · exact String.lt_trans hk (ha e he)
    · next hk =>
      split
      · next he => exact List.pairwise_cons.2 ⟨fun e h' => he ▸ ha e h', hr⟩
      · next hne =>
        refine List.pairwise_cons.2 ⟨fun e he => ?_, ih hr⟩
        rcases mem_place he with rfl | he
        · exact Std.lt_of_le_of_ne (String.not_lt.1 hk) fun h' => hne h'.symm
        · exact ha e he

def insert (a : Attributes) (k v : String) : Attributes :=
  ⟨place k v a.entries, sorted_place k v a.sorted⟩

def get? (a : Attributes) (k : String) : Option String := a.entries.lookup k

theorem lookup_place (k v j : String) (l : List (String × String)) :
    (place k v l).lookup j = if j = k then some v else l.lookup j := by
  have put : ∀ t : List (String × String),
      ((k, v) :: t).lookup j = if j = k then some v else t.lookup j := by
    intro t
    by_cases hj : j = k
    · simp [hj]
    · have hb : (j == k) = false := by simpa using hj
      simp [List.lookup_cons, hb, hj]
  induction l with
  | nil => exact put []
  | cons a r ih =>
    simp only [place]
    split
    · exact put _
    · split
      · next hk =>
        rw [put, List.lookup_cons, ← hk]
        by_cases hj : j = k
        · simp [hj]
        · have hb : (j == k) = false := by simpa using hj
          simp [hb]
      · next hk =>
        rw [List.lookup_cons, List.lookup_cons, ih]
        by_cases hj : j = a.1
        · have hne : j ≠ k := fun e => hk (e.symm.trans hj)
          have hb : (j == a.1) = true := by simpa using hj
          simp [hb, hne]
        · have hb : (j == a.1) = false := by simpa using hj
          simp [hb]

/-- The last insertion under a key is the one that is found. -/
@[simp] theorem get?_insert (a : Attributes) (k v j : String) :
    (a.insert k v).get? j = if j = k then some v else a.get? j :=
  lookup_place k v j a.entries

def contains (a : Attributes) (k : String) : Bool := (a.get? k).isSome

/-- Present and not switched off by the value `false`. -/
def isSet (a : Attributes) (k : String) : Bool :=
  match a.get? k with
  | some v => v != "false"
  | none => false

def size (a : Attributes) : Nat := a.entries.length

def ofList (l : List (String × String)) : Attributes := l.foldl (fun a p => a.insert p.1 p.2) {}

end Attributes

end BlockLens
