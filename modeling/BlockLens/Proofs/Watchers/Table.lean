import BlockLens.Proofs.Watchers
import Mathlib.Data.List.AList
import Mathlib.Data.List.Sort

set_option autoImplicit false

namespace BlockLens

structure WatchTable (α : Type) where
  entries : AList fun _ : String => List (Nat × α) := ∅
  next : Nat := 0

namespace WatchTable

variable {α : Type}

def get (t : WatchTable α) (file : String) : List (Nat × α) := (t.entries.lookup file).getD []

def subscribe (t : WatchTable α) (file : String) (listener : α) : WatchTable α :=
  ⟨t.entries.insert file (t.get file ++ [(t.next, listener)]), t.next + 1⟩

def unsubscribe (t : WatchTable α) (file : String) (id : Nat) : WatchTable α :=
  let left := (t.get file).filter (·.1 != id)
  { t with entries := if left.isEmpty then t.entries.erase file else t.entries.insert file left }

def clear (t : WatchTable α) : WatchTable α := { t with entries := ∅ }

def count (t : WatchTable α) (file : String) : Nat := (t.get file).length

def isWatched (t : WatchTable α) (file : String) : Bool := file ∈ t.entries

def files (t : WatchTable α) : List String := sortStrings t.entries.keys

variable {t : WatchTable α} {w : Watchers α} {file f : String}

theorem get_insert (l : List (Nat × α)) (n : Nat) :
    (⟨t.entries.insert file l, n⟩ : WatchTable α).get f = if file = f then l else t.get f := by
  by_cases h : file = f
  · subst h
    simp [get]
  · simp [get, AList.lookup_insert_ne (Ne.symm h), h]

theorem get_erase (n : Nat) :
    (⟨t.entries.erase file, n⟩ : WatchTable α).get f = if file = f then [] else t.get f := by
  by_cases h : file = f
  · subst h
    simp [get]
  · simp [get, AList.lookup_erase_ne (Ne.symm h), h]

theorem get_unsubscribe (id : Nat) : (t.unsubscribe file id).get f =
    if file = f then (t.get f).filter (·.1 != id) else t.get f := by
  rw [unsubscribe]
  split_ifs with hleft hf hf
  · rw [get_erase, if_pos hf, ← hf, List.isEmpty_iff.1 hleft]
  · rw [get_erase, if_neg hf]
  · rw [get_insert, if_pos hf, hf]
  · rw [get_insert, if_neg hf]

structure Agrees (t : WatchTable α) (w : Watchers α) : Prop where
  next : t.next = w.next
  get : ∀ file, t.get file = (w.forFile file).map fun s => (s.id, s.listener)
  mem : ∀ file, file ∈ t.entries ↔ t.get file ≠ []

theorem agrees_empty : Agrees ({} : WatchTable α) {} where
  next := rfl
  get _ := rfl
  mem file := by simp [WatchTable.get]

theorem Agrees.subscribe (h : t.Agrees w) (file : String) (listener : α) :
    (t.subscribe file listener).Agrees (w.subscribe file listener).2 where
  next := congrArg (· + 1) h.next
  get f := by
    rw [WatchTable.subscribe, get_insert, Watchers.forFile_subscribe, h.get, h.next]
    split_ifs with hf <;> simp [h.get, hf]
  mem f := by
    simp only [WatchTable.subscribe, get_insert, AList.mem_insert, h.mem]
    split_ifs with hf
    · simp [hf]
    · simp [Ne.symm hf]

/-- Only the file's own entry is searched, so the file has to be the one that was subscribed to. -/
theorem Agrees.unsubscribe (h : t.Agrees w) {id : Nat}
    (hfile : ∀ s ∈ w.live, s.id = id → s.file = file) :
    (t.unsubscribe file id).Agrees (w.unsubscribe id) where
  next := h.next
  get f := by
    rw [get_unsubscribe, Watchers.forFile_unsubscribe, h.get, List.filter_map]
    split_ifs with hf
    · rfl
    · refine congrArg _ (List.filter_eq_self.2 fun s hs => ?_).symm
      obtain ⟨hlive, rfl⟩ := Watchers.mem_forFile.1 hs
      exact bne_iff_ne.2 fun hid => hf (hfile s hlive hid).symm
  mem f := by
    rw [get_unsubscribe]
    simp only [WatchTable.unsubscribe, List.isEmpty_iff]
    split_ifs with hleft hf hf
    · simp [AList.mem_erase, ← hf, hleft]
    · simp [AList.mem_erase, Ne.symm hf, h.mem]
    · simp [AList.mem_insert, ← hf, hleft]
    · simp [AList.mem_insert, Ne.symm hf, h.mem]

theorem Agrees.clear (h : t.Agrees w) : t.clear.Agrees w.clear where
  next := h.next
  get _ := rfl
  mem file := by simp [WatchTable.get, WatchTable.clear]

theorem Agrees.count_eq (h : t.Agrees w) (file : String) : t.count file = w.count file := by
  rw [count, h.get, List.length_map, Watchers.count]

theorem Agrees.mem_iff_count (h : t.Agrees w) (file : String) :
    file ∈ t.entries ↔ 0 < w.count file := by
  rw [h.mem, ← h.count_eq, count, List.length_pos_iff]

theorem Agrees.isWatched_eq (h : t.Agrees w) (file : String) :
    t.isWatched file = w.isWatched file := by
  rw [Bool.eq_iff_iff, Watchers.isWatched_eq_true, ← h.mem_iff_count, isWatched, decide_eq_true_iff]

theorem Agrees.files_eq (h : t.Agrees w) : t.files = w.files := by
  refine (pairwise_sortStrings_of_nodup t.entries.keys_nodup).eq_of_mem_iff
    (pairwise_sortedSet _) fun file => ?_
  calc
    file ∈ sortStrings t.entries.keys ↔ file ∈ t.entries := by
      rw [sortStrings, List.mem_mergeSort, AList.mem_keys]
    _ ↔ 0 < w.count file := h.mem_iff_count file
    _ ↔ file ∈ w.files := Watchers.mem_files_iff_count.symm

end WatchTable

end BlockLens
