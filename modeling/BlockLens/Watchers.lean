import BlockLens.Text.Sorted

set_option autoImplicit false

namespace BlockLens

structure Subscription (α : Type) where
  id : Nat
  file : String
  listener : α

structure Watchers (α : Type) where
  live : List (Subscription α) := []
  next : Nat := 0

namespace Watchers

variable {α : Type}

def subscribe (w : Watchers α) (file : String) (listener : α) : Subscription α × Watchers α :=
  let s := ⟨w.next, file, listener⟩
  (s, ⟨w.live ++ [s], w.next + 1⟩)

def unsubscribe (w : Watchers α) (id : Nat) : Watchers α :=
  { w with live := w.live.filter (·.id != id) }

def clear (w : Watchers α) : Watchers α := { w with live := [] }

def forFile (w : Watchers α) (file : String) : List (Subscription α) := w.live.filter (·.file = file)

def count (w : Watchers α) (file : String) : Nat := (w.forFile file).length

def isWatched (w : Watchers α) (file : String) : Bool := w.live.any (·.file = file)

theorem forFile_subscribe (w : Watchers α) (file f : String) (listener : α) :
    (w.subscribe file listener).2.forFile f =
      w.forFile f ++ if file = f then [⟨w.next, file, listener⟩] else [] := by
  by_cases h : file = f <;> simp [subscribe, forFile, h]

theorem forFile_unsubscribe (w : Watchers α) (id : Nat) (f : String) :
    (w.unsubscribe id).forFile f = (w.forFile f).filter (·.id != id) := by
  simp [unsubscribe, forFile, Bool.and_comm]

@[simp] theorem forFile_clear (w : Watchers α) (f : String) : w.clear.forFile f = [] := rfl

theorem isWatched_eq_true {w : Watchers α} {f : String} :
    w.isWatched f = true ↔ 0 < w.count f := by
  simp [isWatched, count, forFile, List.length_pos_iff]

def files (w : Watchers α) : List String := sortedSet (w.live.map (·.file))

end Watchers

end BlockLens
