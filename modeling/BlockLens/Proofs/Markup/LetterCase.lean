import BlockLens.Proofs.Markup.EndTag
import BlockLens.Proofs.Markup.Stretches
import BlockLens.Proofs.Text.Cursor

set_option autoImplicit false

namespace BlockLens

open Text

theorem width_map_toLower (s : List Char) : width (s.map Char.toLower) = width s := by
  induction s with
  | nil => rfl
  | cons c s ih =>
    have hsize : c.toLower.utf8Size = c.utf8Size := by
      rcases toLower_cases c with h | ⟨hc, -, hl⟩
      · rw [h]
      · have hlow := toNat_lt_of_isAlphanum (isAlphanum_of_isLower hl)
        rw [utf8Size_of_lt hc, utf8Size_of_lt hlow]
    simp only [List.map_cons, width, ih, hsize]

namespace Tag

theorem name_of_read? {s r : List Char} {t : Tag} (h : read? s = some (t, r)) :
    t.name.toList = (writtenName s).map Char.toLower := by
  unfold read? at h
  split at h
  · next c u =>
    split at h
    · obtain ⟨p, -, hp⟩ := Option.map_eq_some_iff.1 h
      obtain ⟨rfl, -⟩ := Prod.mk.inj hp
      exact String.toList_ofList
    · contradiction
  · contradiction

theorem behindName_of_read? {name a r : List Char} {t : Tag}
    (h : read? ('<' :: name ++ a) = some (t, r)) (hname : t.name.toList = name) :
    behindName ('<' :: name ++ a) = a := by
  have hwritten := name_of_read? h
  have hsplit := (read?_eq_some h).1
  generalize writtenName ('<' :: name ++ a) = v at hwritten hsplit
  generalize behindName ('<' :: name ++ a) = u at hsplit ⊢
  have hlen : name.length = v.length := by
    rw [← hname, hwritten, List.length_map]
  simp only [List.cons_append, List.cons.injEq, true_and] at hsplit
  exact (List.append_inj hsplit hlen).2.symm

theorem isNameChar_of_isNameStart {c : Char} (h : isNameStart c = true) : isNameChar c = true := by
  have hc : c.isAlpha = true := h
  delta isNameChar Char.isAlphanum
  simp only [hc, Bool.true_or]

theorem read?_respelled {name a w r : List Char} {t : Tag}
    (h : read? ('<' :: name ++ a) = some (t, r)) (hname : t.name.toList = name)
    (hw : w.map Char.toLower = name) : read? ('<' :: w ++ a) = some (t, r) := by
  have hbehind := behindName_of_read? h hname
  have hwritten := name_of_read? h
  obtain ⟨-, ⟨c, u, hcu, hstart⟩, hrest⟩ := read?_eq_some h
  rw [hbehind] at hrest
  -- the spelling begins with a letter, since the name does
  obtain ⟨d, v, rfl, hd⟩ : ∃ d v, w = d :: v ∧ isNameStart d = true := by
    have hfirst : writtenName ('<' :: name ++ a) = c :: u.takeWhile isNameChar := by
      rw [hcu, writtenName, List.drop_one, List.tail_cons, List.takeWhile_cons,
        if_pos (isNameChar_of_isNameStart hstart)]
    rw [hname, hfirst, ← hw] at hwritten
    cases w with
    | nil => contradiction
    | cons d v =>
      refine ⟨d, v, rfl, ?_⟩
      rw [← isNameStart_toLower, (List.cons.inj hwritten).1, isNameStart_toLower, hstart]
  -- it has characters of names only, and what is behind begins with another
  have hchars : ∀ x ∈ d :: v, isNameChar x = true := by
    intro x hx
    have hmem : x.toLower ∈ t.name.toList := by
      rw [hname, ← hw]
      exact List.mem_map_of_mem hx
    rw [← isNameChar_toLower]
    by_contra hno
    exact not_mem_name_of_read? h (Bool.eq_false_iff.2 hno) hmem
  have hhead : ∀ x ∈ a.head?, isNameChar x = false := by
    intro x hx
    rw [← hbehind] at hx
    exact head?_dropWhile hx
  obtain ⟨htake, hdrop⟩ := Markup.takeWhile_append hchars hhead
  have hlower : String.ofList ((d :: v).map Char.toLower) = t.name := by
    rw [hw, ← hname, String.ofList_toList]
  simp only [List.cons_append] at htake hdrop ⊢
  simp only [read?, hd, if_true, htake, hdrop, hlower, hrest, Option.map_some]

end Tag

namespace Markup

/-- Content without an end tag of the name is all of the content, or the element is not over: it
may hold open tags, but nothing that closes one. -/
theorem content?_only_end {name c : List Char} (hfirst : '<' ∉ name)
    (hc : contains ('<' :: '/' :: name) c = false) (nested : Bool) :
    content? name nested 0 (c ++ endTag name) = some (c, []) ∨
      content? name nested 0 (c ++ endTag name) = none := by
  have hcut : cut? ('<' :: '/' :: name) (c ++ endTag name) = some (c, ['>']) := by
    have hrest : '<' ∉ '/' :: name := by simpa using hfirst
    have hnone : cut? ('<' :: '/' :: name) c = none := by simpa [contains] using hc
    simpa [endTag] using cut?_append hrest hnone ['>']
  have hgap : cut? ['>'] ['>'] = some ([], []) := by decide
  have hempty : ∀ d, content? name nested d [] = none := by
    intro d
    rw [content?_of_cut?]
    rfl
  rw [content?_of_cut?, hcut]
  simp only [Option.bind_some, hgap]
  cases depthAfter name nested 0 c (c ++ endTag name) with
  | zero => exact .inl rfl
  | succ d => exact .inr (by simp only [hempty, Option.map_none])

/-- An end tag that is spelled in another way is none. -/
theorem content?_respelled {name v c : List Char} (hfirst : '<' ∉ name) (hfirst' : '<' ∉ v)
    (hlen : v.length = name.length) (hne : v ≠ name)
    (hc : contains ('<' :: '/' :: name) c = false) (nested : Bool) (d : Nat) :
    content? name nested d (c ++ endTag v) = none := by
  have havoids : Avoids ('<' :: '/' :: name) c (endTag v) :=
    avoids_of_contains hc (by simpa using hfirst) _
  have hnot : after? ('<' :: '/' :: name) (endTag v) = none := by
    refine after?_eq_none.2 fun r hr => hne ?_
    simp only [endTag, List.cons_append, List.cons.injEq, true_and] at hr
    exact (List.append_inj hr hlen).1
  have hend : cut? ('<' :: '/' :: name) (endTag v) = none := by
    have hrest : '<' ∉ '/' :: v ++ ['>'] := by simpa using hfirst'
    have htail := cut?_of_avoids (avoids_of_not_mem (w := '/' :: name) hrest [])
    rw [List.append_nil] at htail
    simp only [endTag, List.cons_append] at hnot htail ⊢
    rw [cut?, hnot]
    simp only [htail]
    rfl
  rw [content?_of_cut?, cut?_of_avoids havoids, hend]
  rfl

/-- An element whose name is written as `w` in the open tag and as `v` in the end tag. The rest of
the open tag is `a`, and `c` is the content. -/
def respelled (w v a c : List Char) : String := String.ofList ('<' :: w ++ a ++ (c ++ endTag v))

def allMissing (tag : Tag) (text : String) : Parsed where
  errors := [⟨s!"Element <{tag.name}> is missing end tag.", ⟨0, width text.toList⟩⟩]

section

variable {s t body : List Char} {tag : Tag}

theorem splitAt_opened (h : Tag.read? s = some (tag, [])) (hopen : tag.selfClosing = false)
    (t : List Char) :
    splitAt 0 (s ++ t) =
      match content? tag.name.toList (tag.name == "template") 0 t with
      | some (body, r) => Parsed.cons (block tag (width s) body)
          (splitAt (width s + (width t - width r)) r)
      | none => { errors := [⟨s!"Element <{tag.name}> is missing end tag.",
          ⟨0, width (s ++ t)⟩⟩] } := by
  have hread : Tag.read? (s ++ t) = some (tag, t) := Tag.read?_append h t
  have hstart : 0 + (width (s ++ t) - width t) = width s := by
    rw [width_append]
    omega
  have hstep := splitAt_read hread 0
  simp only [hopen, Bool.false_eq_true, if_false, hstart, Nat.zero_add] at hstep
  exact hstep

theorem split_found (h : Tag.read? s = some (tag, [])) (hopen : tag.selfClosing = false)
    (hend : content? tag.name.toList (tag.name == "template") 0 t = some (body, [])) :
    split (String.ofList (s ++ t)) = ⟨[block tag (width s) body], []⟩ := by
  rw [split, String.toList_ofList, splitAt_opened h hopen, hend]
  simp only [splitAt, Parsed.cons]

theorem split_missing (h : Tag.read? s = some (tag, [])) (hopen : tag.selfClosing = false)
    (hend : content? tag.name.toList (tag.name == "template") 0 t = none) :
    split (String.ofList (s ++ t)) = allMissing tag (String.ofList (s ++ t)) := by
  rw [split, String.toList_ofList, splitAt_opened h hopen, hend, allMissing, String.toList_ofList]

end

/-- An element that is one block if its name is written in small letters is the same block however
the name is spelled in the open tag, and none if it is spelled in any other way in the end tag. -/
theorem split_respelled {name a c w v : List Char} {tag : Tag} {b : Block}
    (hread : Tag.read? ('<' :: name ++ a) = some (tag, [])) (hname : tag.name.toList = name)
    (hopen : tag.selfClosing = false) (hc : contains ('<' :: '/' :: name) c = false)
    (hwhole : split (respelled name name a c) = ⟨[b], []⟩)
    (hw : w.map Char.toLower = name) (hv : v.map Char.toLower = name) :
    b = block tag (width ('<' :: name ++ a)) c ∧
      split (respelled w v a c) =
        if v = name then ⟨[b], []⟩ else allMissing tag (respelled w v a c) := by
  subst hname
  have hfirst : '<' ∉ tag.name.toList := Tag.not_mem_name_of_read? hread rfl
  have hfirst' : '<' ∉ v := fun hm => hfirst (hv ▸ List.mem_map.2 ⟨'<', hm, rfl⟩)
  have hwidth : width ('<' :: w ++ a) = width ('<' :: tag.name.toList ++ a) := by
    have hn := width_map_toLower w
    rw [hw] at hn
    simp only [List.cons_append, width, width_append, hn]
  -- in small letters the element is over where its end tag stands
  have hend : content? tag.name.toList (tag.name == "template") 0
      (c ++ endTag tag.name.toList) = some (c, []) := by
    rcases content?_only_end hfirst hc (tag.name == "template") with h | h
    · exact h
    · rw [respelled, split_missing hread hopen h] at hwhole
      exact absurd (congrArg Parsed.errors hwhole) (List.cons_ne_nil _ _)
  have hblock : b = block tag (width ('<' :: tag.name.toList ++ a)) c := by
    rw [respelled, split_found hread hopen hend] at hwhole
    exact (List.cons.inj (congrArg Parsed.blocks hwhole)).1.symm
  have hspelled := Tag.read?_respelled hread rfl hw
  refine ⟨hblock, ?_⟩
  by_cases hvn : v = tag.name.toList
  · rw [if_pos hvn, hvn, respelled, split_found hspelled hopen hend, hwidth, hblock]
  · have hlen : v.length = tag.name.toList.length := by rw [← hv, List.length_map]
    have hnone := content?_respelled hfirst hfirst' hlen hvn hc (tag.name == "template") 0
    rw [if_neg hvn, respelled, split_missing hspelled hopen hnone]

/-- A script whose tags are in capital letters is lost. -/
theorem split_respelled_capitals :
    (∃ b, split "<script>let a</script>" = ⟨[b], []⟩ ∧ b.content = "let a") ∧
      split "<SCRIPT>let a</SCRIPT>" =
        ⟨[], [⟨"Element <script> is missing end tag.", ⟨0, 22⟩⟩]⟩ := by
  have hname : IsName "script".toList := isName_of_all (by decide) (by decide)
  have hread := read?_plain hname []
  rw [List.append_nil, String.ofList_toList] at hread
  have hend : content? "script".toList false 0 ("let a".toList ++ endTag "script".toList) =
      some ("let a".toList, []) := by
    have hraw := content?_raw (s := "let a".toList) (by decide : '<' ∉ "script".toList)
      (by decide) []
    rwa [List.append_nil] at hraw
  have hwhole : split (respelled "script".toList "script".toList ['>'] "let a".toList) = _ :=
    split_found hread rfl hend
  have hcapitals := (split_respelled (w := "SCRIPT".toList) (v := "SCRIPT".toList) hread (by decide)
    rfl (by decide) hwhole (by decide) (by decide)).2
  rw [if_neg (by decide)] at hcapitals
  exact ⟨⟨_, hwhole, rfl⟩, hcapitals⟩

end Markup

end BlockLens
