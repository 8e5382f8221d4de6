import BlockLens.Watchers

set_option autoImplicit false

namespace BlockLens

theorem pairwise_eraseDups {l : List String} (h : l.Pairwise (· ≤ ·)) :
    l.eraseDups.Pairwise (· < ·) := by
  induction hn : l.length using Nat.strongRecOn generalizing l with
  | ind n ih =>
    cases l with
    | nil => simp
    | cons a l =>
      obtain ⟨ha, hl⟩ := List.pairwise_cons.1 h
      rw [List.eraseDups_cons, List.pairwise_cons]
      have hlen := List.length_filter_le (fun b => !b == a) l
      simp only [List.length_cons] at hn
      refine ⟨fun x hx => ?_, ih _ (by omega) (hl.sublist List.filter_sublist) rfl⟩
      rw [List.mem_eraseDups, List.mem_filter] at hx
      exact Std.lt_of_le_of_ne (ha x hx.1) fun hxa => by simp [hxa] at hx

theorem mem_sortedSet {l : List String} {a : String} : a ∈ sortedSet l ↔ a ∈ l := by
  simp [sortedSet, sortStrings]

theorem pairwise_sortStrings (l : List String) : (sortStrings l).Pairwise (· ≤ ·) := by
  have htrans : ∀ a b c : String, decide (a ≤ b) = true → decide (b ≤ c) = true →
      decide (a ≤ c) = true := by
    intro a b c hab hbc
    simp only [decide_eq_true_eq] at hab hbc ⊢
    exact String.le_trans hab hbc
  have htotal : ∀ a b : String, (decide (a ≤ b) || decide (b ≤ a)) = true := by
    intro a b
    simpa using String.le_total a b
  exact (List.pairwise_mergeSort htrans htotal l).imp fun hab => by simpa using hab

theorem pairwise_sortedSet (l : List String) : (sortedSet l).Pairwise (· < ·) :=
  pairwise_eraseDups (pairwise_sortStrings l)

theorem pairwise_sortStrings_of_nodup {l : List String} (h : l.Nodup) :
    (sortStrings l).Pairwise (· < ·) := by
  have hnodup : (sortStrings l).Nodup := (List.mergeSort_perm l _).nodup_iff.2 h
  exact ((pairwise_sortStrings l).and hnodup).imp fun hab => Std.lt_of_le_of_ne hab.1 hab.2

theorem split_of_pairwise {l : List String} (h : l.Pairwise (· < ·)) {name : String} (hm : name ∈ l) :
    ∃ pre post, l = pre ++ name :: post ∧ name ∉ post ∧ ∀ a, a ∈ pre ↔ a ∈ l ∧ a < name := by
  obtain ⟨pre, post, rfl⟩ := List.append_of_mem hm
  obtain ⟨-, hpost, hpre⟩ := List.pairwise_append.1 h
  have hpost := (List.pairwise_cons.1 hpost).1
  have hpre := fun a ha => hpre a ha name List.mem_cons_self
  refine ⟨pre, post, rfl, fun hm => String.lt_irrefl _ (hpost _ hm), fun a => ?_⟩
  constructor
  · intro ha
    exact ⟨List.mem_append_left _ ha, hpre a ha⟩
  · intro ⟨ha, hlt⟩
    cases List.mem_append.1 ha with
    | inl ha => exact ha
    | inr ha =>
      cases List.mem_cons.1 ha with
      | inl he => exact absurd (he ▸ hlt) (String.lt_irrefl _)
      | inr ha => exact absurd hlt (String.lt_asymm (hpost a ha))

namespace Watchers

variable {α : Type} {w : Watchers α}

/-- Numbers are below the next one, and no two subscriptions share one. -/
structure Numbered (w : Watchers α) : Prop where
  below : ∀ s ∈ w.live, s.id < w.next
  ids : (w.live.map (·.id)).Nodup

theorem numbered_empty : ({} : Watchers α).Numbered := ⟨by simp, by simp⟩

theorem Numbered.subscribe (h : w.Numbered) (file : String) (listener : α) :
    (w.subscribe file listener).2.Numbered where
  below s hs := by
    simp only [Watchers.subscribe, List.mem_append, List.mem_singleton] at hs
    rcases hs with hs | rfl
    · exact Nat.lt_succ_of_lt (h.below s hs)
    · exact Nat.lt_succ_self _
  ids := by
    simp only [Watchers.subscribe, List.map_append, List.map_cons, List.map_nil]
    refine List.nodup_append.2 ⟨h.ids, by simp, fun i hi j hj => ?_⟩
    obtain ⟨s, hs, rfl⟩ := List.mem_map.1 hi
    have := h.below s hs
    simp only [List.mem_singleton] at hj
    omega

theorem Numbered.unsubscribe (h : w.Numbered) (id : Nat) : (w.unsubscribe id).Numbered where
  below s hs := h.below s (List.mem_filter.1 hs).1
  ids := h.ids.sublist (List.filter_sublist.map _)

theorem numbered_clear (w : Watchers α) : w.clear.Numbered :=
  ⟨by simp [Watchers.clear], by simp [Watchers.clear]⟩

theorem mem_forFile {file : String} {s : Subscription α} :
    s ∈ w.forFile file ↔ s ∈ w.live ∧ s.file = file := by
  simp [forFile]

theorem mem_files {file : String} : file ∈ w.files ↔ ∃ s ∈ w.live, s.file = file := by
  simp [files, mem_sortedSet]

theorem mem_files_iff_count {file : String} : file ∈ w.files ↔ 0 < w.count file := by
  rw [← isWatched_eq_true, isWatched, mem_files, List.any_eq_true]
  simp only [decide_eq_true_eq]

theorem Numbered.nodup_forFile (h : w.Numbered) (file : String) :
    ((w.forFile file).map (·.id)).Nodup := h.ids.sublist (List.filter_sublist.map _)

theorem Numbered.eq_of_id (h : w.Numbered) {s t : Subscription α} (hs : s ∈ w.live) (ht : t ∈ w.live)
    (hid : s.id = t.id) : s = t := by
  have hids := h.ids
  generalize w.live = l at hs ht hids
  induction l with
  | nil => simp at hs
  | cons u l ih =>
    simp only [List.map_cons, List.nodup_cons, List.mem_map, not_exists, not_and] at hids
    obtain ⟨hu, hl⟩ := hids
    rcases List.mem_cons.1 hs with rfl | hs'
    · rcases List.mem_cons.1 ht with rfl | ht'
      · rfl
      · exact absurd hid.symm (hu t ht')
    · rcases List.mem_cons.1 ht with rfl | ht'
      · exact absurd hid (hu s hs')
      · exact ih hs' ht' hl

theorem filter_id {l : List (Subscription α)} (h : (l.map (·.id)).Nodup) {s : Subscription α}
    (hs : s ∈ l) : l.filter (·.id = s.id) = [s] := by
  induction l with
  | nil => simp at hs
  | cons u l ih =>
    simp only [List.map_cons, List.nodup_cons, List.mem_map, not_exists, not_and] at h
    rcases List.mem_cons.1 hs with rfl | hs
    · have hrest : l.filter (·.id = s.id) = [] :=
        List.filter_eq_nil_iff.2 fun t ht => by simpa using h.1 t ht
      rw [List.filter_cons_of_pos (by simp), hrest]
    · have hne : ¬ u.id = s.id := fun hu => h.1 s hs hu.symm
      rw [List.filter_cons_of_neg (by simpa using hne), ih h.2 hs]

end Watchers

end BlockLens
