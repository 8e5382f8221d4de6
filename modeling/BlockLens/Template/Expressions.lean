import BlockLens.Markup.Tag
import BlockLens.Span

set_option autoImplicit false

namespace BlockLens

open Text

structure Excerpt where
  start : Nat
  text : List Char
  deriving DecidableEq, Repr

def Excerpt.span (e : Excerpt) : Span := ⟨e.start, e.start + width e.text⟩

namespace Template

def directives : List String := ["v-if", "v-else-if", "v-show", "v-model", "v-html", "v-text"]

def isBound (key : List Char) : Bool :=
  startsWith [':'] key || startsWith ['@'] key || startsWith "v-bind:".toList key ||
    startsWith "v-on:".toList key || directives.contains (String.ofList key)

/-- The attribute at the front of `c :: s`, which begins at `o`: its value, if it is an
expression, and the rest. An open quotation reaches to the end of the text. -/
def readAttribute (o : Nat) (c : Char) (s : List Char) : Option Excerpt × List Char :=
  if Tag.isKeyChar c then
    let key := c :: s.takeWhile Tag.isKeyChar
    match s.dropWhile Tag.isKeyChar with
    | '=' :: q :: t =>
      if Tag.isQuote q then
        match cut? [q] t with
        | some (v, r) =>
          (if isBound key && !isVoid v then some ⟨o + width key + 2, v⟩ else none, r)
        | none => (none, [])
      else (none, q :: t)
    | '=' :: [] => (none, [])
    | r => (none, r)
  else (none, s)

theorem length_readAttribute_le (o : Nat) (c : Char) (s : List Char) :
    (readAttribute o c s).2.length ≤ s.length := by
  unfold readAttribute
  split
  · have h := length_dropWhile_le Tag.isKeyChar s
    split
    · next q t ht =>
      rw [ht] at h
      simp only [List.length_cons] at h
      split
      · split
        · next v r hv => have := length_of_cut? hv; simp at *; omega
        · simp
      · simp; omega
    · simp
    · next r => exact h
  · simp

def isGap (c : Char) : Bool := isBlank c || c == '/'

def readAttributes (o : Nat) (s : List Char) : List Excerpt × List Char :=
  match _h : s.dropWhile isGap with
  | [] => ([], [])
  | c :: t =>
    if c = '>' then ([], t)
    else
      let o₁ := o + width (s.takeWhile isGap)
      let a := readAttribute o₁ c t
      let p := readAttributes (o₁ + (width (c :: t) - width a.2)) a.2
      (a.1.toList ++ p.1, p.2)
termination_by s.length
decreasing_by
  have h1 := length_dropWhile_le isGap s
  have h2 := length_readAttribute_le (o + width (s.takeWhile isGap)) c t
  rw [_h] at h1
  simp only [List.length_cons] at h1
  omega

theorem length_readAttributes_le (o : Nat) (s : List Char) : (readAttributes o s).2.length ≤ s.length := by
  induction hn : s.length using Nat.strongRecOn generalizing o s with
  | ind n ih =>
    subst hn
    rw [readAttributes]
    have h1 := length_dropWhile_le isGap s
    split
    · simp
    · next c t h =>
      rw [h] at h1
      simp only [List.length_cons] at h1
      split
      · simp; omega
      · have h2 := length_readAttribute_le (o + width (s.takeWhile isGap)) c t
        have h3 := ih _ (by omega) (o + width (s.takeWhile isGap) +
          (width (c :: t) - width (readAttribute (o + width (s.takeWhile isGap)) c t).2))
          (readAttribute (o + width (s.takeWhile isGap)) c t).2 rfl
        simp only at *
        omega

def isTagChar (c : Char) : Bool := !(isBlank c || c == '>' || c == '/')

def expressionsFrom (o : Nat) (s : List Char) : List Excerpt :=
  match s with
  | [] => []
  | '<' :: '!' :: '-' :: '-' :: t =>
    match h : cut? ['-', '-', '>'] ('!' :: '-' :: '-' :: t) with
    | some (c, r) => expressionsFrom (o + 1 + width c + 3) r
    | none => []
  | '{' :: '{' :: t =>
    match h : cut? ['}', '}'] t with
    | some (e, r) =>
      (if isVoid e then [] else [⟨o + 2, e⟩]) ++ expressionsFrom (o + 2 + width e + 2) r
    | none => []
  | '<' :: c :: t =>
    if c.isAlpha then
      let name := (c :: t).takeWhile isTagChar
      let p := readAttributes (o + 1 + width name) ((c :: t).dropWhile isTagChar)
      p.1 ++ expressionsFrom (o + (width ('<' :: c :: t) - width p.2)) p.2
    else expressionsFrom (o + 1) (c :: t)
  | c :: t => expressionsFrom (o + c.utf8Size) t
termination_by s.length
decreasing_by
  · have := length_of_cut? h; simp at *; omega
  · have := length_of_cut? h; simp at *; omega
  · have h1 := length_readAttributes_le (o + 1 + width ((c :: t).takeWhile isTagChar))
      ((c :: t).dropWhile isTagChar)
    have h2 := length_dropWhile_le isTagChar (c :: t)
    simp only [List.length_cons] at *
    omega
  · simp
  · simp

def expressions (content : String) : List Excerpt := expressionsFrom 0 content.toList

end Template

end BlockLens
