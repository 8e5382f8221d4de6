
set_option autoImplicit false

namespace BlockLens

def sortStrings (l : List String) : List String := l.mergeSort fun a b => a ≤ b

def sortedSet (l : List String) : List String := (sortStrings l).eraseDups

end BlockLens
