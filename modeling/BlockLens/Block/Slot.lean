import BlockLens.Block.Kind
/-!
Addresses of blocks. A style is counted among the styles and a custom block among those of its
name, so that a block of another kind never moves it.
-/

set_option autoImplicit false

namespace BlockLens

inductive Slot where
  | template
  | script
  | scriptSetup
  | style (index : Nat)
  | custom (name : String) (index : Nat)
  deriving DecidableEq, Repr

namespace Slot

def kind : Slot → Kind
  | .template => .template
  | .script | .scriptSetup => .script
  | .style _ => .style
  | .custom name _ => .custom name

def index? : Slot → Option Nat
  | .style i | .custom _ i => some i
  | .template | .script | .scriptSetup => none

def isSetup : Slot → Bool
  | .scriptSetup => true
  | _ => false

def isScript : Slot → Bool
  | .script | .scriptSetup => true
  | _ => false

def ofParts? : Kind → Option Nat → Bool → Option Slot
  | .template, none, false => some .template
  | .script, none, false => some .script
  | .script, none, true => some .scriptSetup
  | .style, some i, false => some (.style i)
  | .custom name, some i, false => some (.custom name i)
  | _, _, _ => none

theorem ofParts?_eq_some {k : Kind} {i : Option Nat} {b : Bool} {s : Slot} :
    ofParts? k i b = some s ↔ s.kind = k ∧ s.index? = i ∧ s.isSetup = b := by
  constructor
  · intro h
    unfold ofParts? at h
    split at h <;> simp_all <;> subst h <;> simp [kind, index?, isSetup]
  · rintro ⟨rfl, rfl, rfl⟩
    cases s <;> rfl

def rank : Slot → Nat
  | .template => 0
  | .script => 1
  | .scriptSetup => 2
  | .style _ => 3
  | .custom _ _ => 4

def le : Slot → Slot → Bool
  | .style i, .style j => i ≤ j
  | .custom m i, .custom n j => m < n || (m = n && i ≤ j)
  | s, t => s.rank ≤ t.rank

end Slot

end BlockLens
