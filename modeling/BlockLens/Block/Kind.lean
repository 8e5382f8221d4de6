
set_option autoImplicit false

namespace BlockLens

/-- Every tag but the first three names a custom kind. -/
inductive Kind where
  | template
  | script
  | style
  | custom (name : String)
  deriving DecidableEq, Repr

namespace Kind

def ofTag (tag : String) : Kind :=
  if tag = "template" then .template
  else if tag = "script" then .script
  else if tag = "style" then .style
  else .custom tag

def tag : Kind → String
  | .template => "template"
  | .script => "script"
  | .style => "style"
  | .custom name => name

@[simp] theorem tag_ofTag (t : String) : (ofTag t).tag = t := by
  unfold ofTag; split
  · simp [tag, *]
  · split
    · simp [tag, *]
    · split <;> simp [tag, *]

/-- Styles and custom blocks may repeat and are told apart by an index. -/
def repeats : Kind → Bool
  | .style | .custom _ => true
  | .template | .script => false

def defaultLanguage : Kind → String
  | .template => "vue-html"
  | .script => "js"
  | .style => "css"
  | .custom name => name

end Kind

end BlockLens
