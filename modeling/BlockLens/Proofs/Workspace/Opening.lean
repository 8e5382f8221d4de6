import BlockLens.Proofs.Workspace.Sound

set_option autoImplicit false

namespace BlockLens.Workspace

variable {w : Workspace} {L : Nat → Ledger}

theorem Sound.addSource (h : w.Sound L) (s : Source) : (w.addSource s).2.Sound L := by
  refine { h with source := fun n f hf => ?_ }
  have := h.source n f hf
  simp only [Workspace.addSource, List.length_append, List.length_cons, List.length_nil]
  omega

theorem getElem?_composites_open {n : Nat} {f g : Filed} (hg : (w.composites ++ [g])[n]? = some f) :
    w.composites[n]? = some f ∨ n = w.composites.length ∧ f = g := by
  rw [List.getElem?_append] at hg
  split at hg
  · exact .inl hg
  · next hn =>
    obtain ⟨hlt, he⟩ := List.getElem?_eq_some_iff.1 hg
    simp only [List.length_cons, List.length_nil] at hlt
    refine .inr ⟨by omega, ?_⟩
    rw [← he]
    simp

theorem Sound.openSource (h : w.Sound L) (file : String) {source : Nat}
    (hs : source < w.sources.length) : (w.openSource file source).2.Sound L := by
  unfold Workspace.openSource
  split
  · exact h
  have hnew : L w.composites.length = .start := h.unmade _ (List.getElem?_eq_none (Nat.le_refl _))
  constructor
  case source =>
    intro n f hf
    rcases getElem?_composites_open hf with hf | ⟨-, rfl⟩
    · exact h.source n f hf
    · exact hs
  case opened =>
    intro p hp
    rcases List.mem_append.1 hp with hp | hp
    · obtain ⟨f, hf, hfile⟩ := h.opened p hp
      obtain ⟨hlt, -⟩ := List.getElem?_eq_some_iff.1 hf
      exact ⟨f, by rw [List.getElem?_append_left hlt]; exact hf, hfile⟩
    · rw [List.mem_singleton.1 hp]
      exact ⟨⟨source, { file }⟩, by simp, rfl⟩
  case consistent =>
    intro n f hf
    rcases getElem?_composites_open hf with hf | ⟨-, rfl⟩
    · exact h.consistent n f hf
    · exact Composite.consistent_new _ file
  case covers =>
    intro n f hf
    rcases getElem?_composites_open hf with hf | ⟨rfl, rfl⟩
    · exact h.covers n f hf
    · rw [hnew]
      exact Ledger.covers_start file
  case unmade =>
    intro n hn
    have hlen := List.getElem?_eq_none_iff.1 hn
    simp only [List.length_append, List.length_cons, List.length_nil] at hlen
    exact h.unmade n (List.getElem?_eq_none (by omega))
  case kept => exact h.kept

theorem Sound.openText (h : w.Sound L) (file text : String) (version : Int) :
    (w.openText file text version).2.Sound L := by
  unfold Workspace.openText
  split
  · exact h
  · exact (h.addSource ⟨text, version⟩).openSource file (by simp [Workspace.addSource])

theorem Sound.close (h : w.Sound L) (file : String) : (w.close file).Sound L :=
  { h with opened := fun p hp => h.opened p (List.mem_filter.1 hp).1 }

theorem Sound.closeAll (h : w.Sound L) : w.closeAll.Sound L :=
  { h with opened := fun p hp => by simp [Workspace.closeAll] at hp }

theorem Sound.hold (h : w.Sound L) (n : Nat) : (w.hold n).Sound L := { h with }

theorem Sound.releaseAll (h : w.Sound L) : w.releaseAll.Sound L := { h with }

theorem Sound.file_of_get? (h : w.Sound L) {file : String} {n : Nat} (hn : w.get? file = some n) :
    ∃ d, w.document? n = some d ∧ d.composite.file = file ∧ w.isAlive n = true := by
  have hm : (file, n) ∈ w.opened := by
    obtain ⟨l₁, l₂, hl, -⟩ := List.lookup_eq_some_iff.1 hn
    simp [hl]
  obtain ⟨f, hf, hfile⟩ := h.opened _ hm
  obtain ⟨d, hd, hc⟩ := h.exists_document? hf
  refine ⟨d, hd, by rw [hc, hfile], ?_⟩
  simp only [isAlive, Bool.or_eq_true, List.any_eq_true, decide_eq_true_eq]
  exact .inl ⟨_, hm, rfl⟩

end BlockLens.Workspace
