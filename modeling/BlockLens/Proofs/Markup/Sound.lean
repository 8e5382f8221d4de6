import BlockLens.Proofs.Markup.Order
import BlockLens.Proofs.Markup.RoundTrip
import BlockLens.Proofs.Markup.Scanner

set_option autoImplicit false

namespace BlockLens

open Text

namespace Markup

namespace Scanner

variable {t s : List Char}

theorem countOpens_of_not_contains {name : List Char} (h : cut? ('<' :: name) s = none) (n : Nat) :
    countOpens name n s = 0 := by
  induction s generalizing n with
  | nil => cases n <;> rfl
  | cons c s ih =>
    cases n with
    | zero => rfl
    | succ n =>
      simp only [cut?] at h
      cases ha : after? ('<' :: name) (c :: s) with
      | some r => simp [ha] at h
      | none =>
        simp only [ha, Option.map_eq_none_iff] at h
        simp [countOpens, opens, ha, ih h]

theorem append_eq_open {name b body r rest : List Char} (hname : '<' ∉ name)
    (h : body ++ '<' :: rest = b ++ ('<' :: name ++ r)) :
    (∃ e, b = body ++ e ∧ '<' :: rest = e ++ ('<' :: name ++ r)) ∨
      ∃ e, body = b ++ ('<' :: name ++ e) ∧ r = e ++ '<' :: rest := by
  rcases List.append_eq_append_iff.1 h with ⟨e, hb, hrest⟩ | ⟨e, hbody, hrest⟩
  · exact .inl ⟨e, hb, hrest⟩
  · cases e with
    | nil => exact .inl ⟨[], by simpa using hbody.symm, by simpa using hrest.symm⟩
    | cons c e =>
      simp only [List.cons_append, List.cons.injEq] at hrest
      obtain ⟨rfl, hrest⟩ := hrest
      right
      rcases List.append_eq_append_iff.1 hrest with ⟨d, he, hr⟩ | ⟨d, hn, hr⟩
      · exact ⟨d, by simp [hbody, he], hr⟩
      · cases d with
        | nil => exact ⟨[], by simp [hbody, hn], by simpa using hr.symm⟩
        | cons x d =>
          -- the word would hold the sign that ends the body
          simp only [List.cons_append, List.cons.injEq] at hr
          exact absurd (by rw [hn, ← hr.1]; simp) hname

theorem opensAt_offset {name r : List Char} (h : '<' :: name ++ r <:+ t) :
    opensAt t name (offset t ('<' :: name ++ r)) = some (opens name ('<' :: name ++ r)) := by
  have hclass : Narrow fun c => isBlank c || c == '>' || c == '/' :=
    narrow_or (narrow_or narrow_isBlank (narrow_beq (by decide))) (narrow_beq (by decide))
  have hafter := after?_append ('<' :: name) r
  rw [opensAt, offset_add h, hclass.bytewise.all_charAt? (suffix_of_append h)]
  rw [List.cons_append] at h hafter ⊢
  have hopens : opens name ('<' :: (name ++ r)) =
      (r.head?.all (fun c => isBlank c || c == '>' || c == '/') &&
        (Option.map (fun p => (p.1, offset t p.2)) (Tag.read? ('<' :: (name ++ r)))).any
          fun p => !p.1.selfClosing) := by
    simp only [opens, hafter]
    cases r <;> cases Tag.read? ('<' :: _) <;> rfl
  rw [tag_offset h, hopens]
  cases r.head?.all fun c => isBlank c || c == '>' || c == '/' <;> rfl

theorem countOpens_open {name b e r : List Char} (hname : '<' ∉ name)
    (hb : Avoids ('<' :: name) b ('<' :: name ++ (e ++ r))) :
    countOpens name (b ++ ('<' :: name ++ e)).length (b ++ ('<' :: name ++ (e ++ r))) =
      (if opens name ('<' :: name ++ (e ++ r)) then 1 else 0) +
        countOpens name e.length (e ++ r) := by
  have hlen : (b ++ ('<' :: name ++ e)).length = b.length + (name.length + e.length + 1) := by
    simp
  rw [hlen, countOpens_of_avoids hb, List.cons_append, countOpens,
    countOpens_of_avoids (avoids_of_not_mem hname _)]

theorem openedIn_offset {name body rest : List Char} (hname : '<' ∉ name) (depth : Nat)
    (h : body ++ '<' :: rest <:+ t) {n : Nat} (hn : body.length < n) :
    openedIn t name (offset t ('<' :: rest)) n depth (offset t (body ++ '<' :: rest)) =
      some (depth + countOpens name body.length (body ++ '<' :: rest)) := by
  induction n generalizing depth body with
  | zero => omega
  | succ n ih =>
    rw [openedIn, find?_offset _ h]
    cases hcut : cut? ('<' :: name) (body ++ '<' :: rest) with
    | none =>
      rw [countOpens_of_not_contains hcut]
      rfl
    | some p =>
      obtain ⟨b, r⟩ := p
      have hs : body ++ '<' :: rest = b ++ ('<' :: name ++ r) := by
        rw [eq_of_cut? hcut, List.append_assoc]
      have havoid := avoids_of_cut? hcut
      have hword : '<' :: name ++ r <:+ t := suffix_of_append (hs ▸ h)
      simp only [Option.map_some]
      rcases append_eq_open hname hs with ⟨e, rfl, hrest⟩ | ⟨e, rfl, rfl⟩
      · have hle : offset t ('<' :: rest) ≤ offset t ('<' :: name ++ r) := by
          have := offset_add (hrest ▸ suffix_of_append h)
          rw [← hrest] at this
          omega
        have hcount := countOpens_of_avoids (avoids_append.1 havoid).1 0
        rw [← hrest, Nat.add_zero] at hcount
        rw [if_pos hle, hcount]
        rfl
      · have hr : e ++ '<' :: rest <:+ t := suffix_of_append hword
        have hnext := offset_add hword
        have hlt : ¬ offset t ('<' :: rest) ≤ offset t ('<' :: name ++ (e ++ '<' :: rest)) := by
          have hpos : 0 < width ('<' :: name) := width_pos (by simp)
          have := offset_add hr
          omega
        have hlen : e.length < n := by
          simp only [List.length_append, List.length_cons] at hn
          omega
        rw [if_neg hlt, hnext, opensAt_offset hword, hs, countOpens_open hname havoid]
        simp only [bind, Option.bind_some, ih _ hr hlen]
        split
        · simp
          omega
        · simp

theorem content_step {name body u : List Char} (hname : '<' ∉ name ∧ '>' ∉ name) (nested : Bool)
    (n depth : Nat) (h : s <:+ t) (hcut : cut? ('<' :: '/' :: name) s = some (body, u)) :
    contentIn t name nested (n + 1) depth (offset t s) =
      match cut? ['>'] u with
      | none => some none
      | some (_, r) =>
        match depthAfter name nested depth body s with
        | 0 => some (some (offset t s + width body, offset t r))
        | d + 1 => contentIn t name nested n d (offset t r) := by
  obtain rfl : s = body ++ ('<' :: '/' :: name ++ u) := by
    rw [eq_of_cut? hcut, List.append_assoc]
  have hword := suffix_of_append h
  have hu := suffix_of_append hword
  have hdepth : depthAt t name nested (offset t ('<' :: '/' :: name ++ u)) depth
        (offset t (body ++ ('<' :: '/' :: name ++ u))) =
      some (depthAfter name nested depth body (body ++ ('<' :: '/' :: name ++ u))) := by
    cases nested with
    | false => rfl
    | true =>
      have hlen := length_lt_turns h
      rw [List.length_append] at hlen
      exact openedIn_offset hname.1 depth h (by omega)
  have hfind : find? ['>'] t (offset t ('<' :: '/' :: name ++ u)) =
      (cut? ['>'] u).map fun p => offset t ('>' :: p.2) := by
    have havoid : Avoids ['>'] ('<' :: '/' :: name) u :=
      avoids_of_not_mem (by simp [hname.2]) u
    rw [find?_offset _ hword, cut?_of_avoids havoid, Option.map_map]
    rfl
  rw [contentIn, find?_offset _ h, hcut]
  simp only [Option.map_some, hdepth, bind, Option.bind_some, hfind]
  cases hgap : cut? ['>'] u with
  | none => rfl
  | some p =>
    obtain ⟨gap, r⟩ := p
    obtain rfl : u = gap ++ '>' :: r := by rw [eq_of_cut? hgap]; simp
    simp only [Option.map_some, offset_cons (suffix_of_append hu) (show '>'.toNat < 128 by decide),
      offset_add h]
    cases depthAfter name nested depth body _ <;> rfl

theorem contentIn_offset {name : List Char} (hname : '<' ∉ name ∧ '>' ∉ name) (nested : Bool)
    (depth : Nat) (h : s <:+ t) {n : Nat} (hn : s.length < n) :
    contentIn t name nested n depth (offset t s) =
      some ((content? name nested depth s).map fun p =>
        (offset t s + width p.1, offset t p.2)) := by
  induction n generalizing depth s with
  | zero => omega
  | succ n ih =>
    rw [content?_of_cut?]
    cases hcut : cut? ('<' :: '/' :: name) s with
    | none =>
      rw [contentIn, find?_offset _ h, hcut]
      rfl
    | some p =>
      obtain ⟨body, u⟩ := p
      rw [content_step hname nested n depth h hcut, Option.bind_some]
      cases hgap : cut? ['>'] u with
      | none => rfl
      | some q =>
        obtain ⟨gap, r⟩ := q
        have hs : s = body ++ '<' :: '/' :: name ++ gap ++ ['>'] ++ r := by
          rw [eq_of_cut? hcut, eq_of_cut? hgap]
          simp
        have hr : r <:+ t := suffix_of_append (hs ▸ h)
        have hlen : r.length < n := by
          rw [hs] at hn
          simp only [List.length_append, List.length_cons] at hn
          omega
        cases depthAfter name nested depth body s with
        | zero => simp only [Option.bind_some, Option.map_some]
        | succ d =>
          have hplace := offset_add (hs ▸ h)
          rw [← hs] at hplace
          have hwidth : ∀ x : List Char, offset t r + width x =
              offset t s + width (body ++ '<' :: '/' :: name ++ gap ++ '>' :: x) := by
            intro x
            rw [← hplace]
            simp only [width_append, width]
            omega
          simp only [Option.bind_some, ih d hr hlen, Option.map_map, Function.comp_def, hwidth]

theorem splitAt_of_cut?_eq_none (hcut : cut? ['<'] s = none) (o : Nat) : splitAt o s = {} := by
  have hs : '<' ∉ s := by
    intro hm
    obtain ⟨u, v, rfl, hu⟩ := List.eq_append_cons_of_mem hm
    rw [cut?_singleton hu] at hcut
    contradiction
  have hplain := splitAt_plain hs o []
  rw [List.append_nil] at hplain
  rw [hplain, splitAt]

theorem blocksIn_width (t : List Char) (n : Nat) : blocksIn t (n + 1) (width t) = some {} := by
  have hend : find? ['<'] t (width t) = none := find?_offset ['<'] (List.nil_suffix (l := t))
  rw [blocksIn, hend]

theorem startsWith_append (w s : List Char) : startsWith w (w ++ s) = true := by
  rw [startsWith, after?_append]
  rfl

theorem startsWith_eq_false {w : List Char} (h : ∀ r, s ≠ w ++ r) : startsWith w s = false := by
  rw [startsWith, after?_eq_none.2 h]
  rfl

theorem turn_comment {v : List Char} (h : '<' :: '!' :: '-' :: '-' :: v <:+ t) :
    turn t (offset t ('<' :: '!' :: '-' :: '-' :: v)) =
      match cut? ['-', '-', '>'] v with
      | some (_, r) => some (.skip (offset t r))
      | none => some (.error ⟨"Unterminated comment",
          ⟨offset t ('<' :: '!' :: '-' :: '-' :: v), width t⟩⟩ (width t)) := by
  have hplace : offset t ('<' :: '!' :: '-' :: '-' :: v) + 4 = offset t v :=
    offset_add (u := ['<', '!', '-', '-']) h
  have hv : v <:+ t := suffix_of_append (u := ['<', '!', '-', '-']) h
  have hstart : startsWith ['<', '!', '-', '-'] ('<' :: '!' :: '-' :: '-' :: v) = true :=
    startsWith_append _ v
  rw [turn, from?_offset h]
  simp only [bind, Option.bind_some, hstart, if_true, hplace, find?_offset _ hv]
  cases hcut : cut? ['-', '-', '>'] v with
  | none => rfl
  | some p => exact congrArg (some ∘ Turn.skip) (offset_of_cut? hv hcut).2.1

theorem turn_endTag {v : List Char} (h : '<' :: '/' :: v <:+ t) :
    turn t (offset t ('<' :: '/' :: v)) =
      match cut? ['>'] v with
      | some (_, r) => some (.skip (offset t r))
      | none => some (.skip (width t)) := by
  have hv : v <:+ t := suffix_of_append (u := ['<', '/']) h
  have hcomment : startsWith ['<', '!', '-', '-'] ('<' :: '/' :: v) = false :=
    startsWith_eq_false (by simp)
  have hstart : startsWith ['<', '/'] ('<' :: '/' :: v) = true := startsWith_append _ v
  have havoid : Avoids ['>'] ['<', '/'] v := avoids_of_not_mem (by decide) v
  have hfind : find? ['>'] t (offset t ('<' :: '/' :: v)) =
      (cut? ['>'] v).map fun p => offset t ('>' :: p.2) := by
    have hcut := cut?_of_avoids havoid
    rw [List.cons_append, List.cons_append, List.nil_append] at hcut
    rw [find?_offset _ h, hcut, Option.map_map]
    rfl
  rw [turn, from?_offset h]
  simp only [bind, Option.bind_some, hcomment, hstart, Bool.false_eq_true, if_false, if_true, hfind]
  cases hcut : cut? ['>'] v with
  | none => rfl
  | some p => exact congrArg (some ∘ Turn.skip) (offset_of_cut? hv hcut).2.1

theorem turn_tag {u : List Char} (h : '<' :: u <:+ t) (hcomment : ∀ v, u ≠ '!' :: '-' :: '-' :: v)
    (hend : ∀ v, u ≠ '/' :: v) :
    turn t (offset t ('<' :: u)) =
      match Tag.read? ('<' :: u) with
      | none => some (.skip (offset t u))
      | some (g, r) =>
        if g.selfClosing then some (.block (block g (offset t r) []) (offset t r))
        else
          match content? g.name.toList (g.name == "template") 0 r with
          | some (body, r') => some (.block (block g (offset t r) body) (offset t r'))
          | none =>
            some (.last ⟨s!"Element <{g.name}> is missing end tag.",
              ⟨offset t ('<' :: u), width t⟩⟩) := by
  have hfalse : startsWith ['<', '!', '-', '-'] ('<' :: u) = false :=
    startsWith_eq_false fun r hr => hcomment r (List.cons.inj hr).2
  have hfalse' : startsWith ['<', '/'] ('<' :: u) = false :=
    startsWith_eq_false fun r hr => hend r (List.cons.inj hr).2
  rw [turn, from?_offset h]
  simp only [bind, Option.bind_some, hfalse, hfalse', Bool.false_eq_true, if_false, tag_offset h]
  cases hread : Tag.read? ('<' :: u) with
  | none => exact congrArg (some ∘ Turn.skip) (offset_cons h (by decide))
  | some p =>
    obtain ⟨g, r⟩ := p
    have hr : r <:+ t := (Tag.suffix_read? hread).trans h
    have hname : '<' ∉ g.name.toList ∧ '>' ∉ g.name.toList :=
      ⟨Tag.not_mem_name_of_read? hread (by decide),
        Tag.not_mem_name_of_read? hread (by decide)⟩
    simp only [Option.map_some]
    cases hself : g.selfClosing with
    | true => rfl
    | false =>
      simp only [Bool.false_eq_true, if_false, contentIn_offset hname _ _ hr (length_lt_turns hr),
        Option.bind_some]
      cases hbody : content? g.name.toList (g.name == "template") 0 r with
      | none => rfl
      | some q =>
        obtain ⟨body, r'⟩ := q
        obtain ⟨gap, hgap⟩ := eq_of_content? hbody
        rw [List.append_assoc, List.append_assoc] at hgap
        have hslice : slice? t (offset t r) (offset t r + width body) = some body := by
          rw [hgap] at hr ⊢
          rw [offset_add hr, slice?_offset hr]
        simp only [Option.map_some, hslice, Option.bind_some]
        rfl

/-- From `s` on the scanner finds what the splitter finds, in `n` turns. -/
def Agrees (n : Nat) (t s : List Char) : Prop :=
  blocksIn t n (offset t s) = some (splitAt (offset t s) s)

def AgreesBehind (n : Nat) (t : List Char) : Prop :=
  ∀ r, r <:+ t → r.length < n → Agrees n t r

theorem find?_open {b u : List Char} (hb : '<' ∉ b) (h : b ++ '<' :: u <:+ t) :
    find? ['<'] t (offset t (b ++ '<' :: u)) = some (offset t ('<' :: u)) := by
  rw [find?_offset _ h, cut?_singleton hb]
  rfl

theorem find?_here {u : List Char} (h : '<' :: u <:+ t) :
    find? ['<'] t (offset t ('<' :: u)) = some (offset t ('<' :: u)) :=
  find?_open (b := []) (by simp) h

theorem agrees_comment {v : List Char} {n : Nat} (h : '<' :: '!' :: '-' :: '-' :: v <:+ t)
    (ih : AgreesBehind n t) (hn : v.length < n) :
    Agrees (n + 1) t ('<' :: '!' :: '-' :: '-' :: v) := by
  have hv : v <:+ t := suffix_of_append (u := ['<', '!', '-', '-']) h
  have hplace : offset t ('<' :: '!' :: '-' :: '-' :: v) + 4 = offset t v :=
    offset_add (u := ['<', '!', '-', '-']) h
  rw [Agrees, blocksIn, find?_here h, splitAt_comment, hplace]
  simp only [turn_comment h, bind]
  cases hcut : cut? ['-', '-', '>'] v with
  | none =>
    obtain ⟨m, rfl⟩ : ∃ m, n = m + 1 := ⟨n - 1, by omega⟩
    have hend := width_eq_offset hv
    simp only [Option.bind_some, blocksIn_width, ← hend]
    rfl
  | some p =>
    obtain ⟨c, r⟩ := p
    obtain ⟨hr, -, hnext⟩ := offset_of_cut? hv hcut
    have hlen := length_of_cut? hcut
    have hlater := ih r hr (by omega)
    rw [Agrees, ← hnext] at hlater
    simp only [Option.bind_some, ← hnext, hlater]
    rfl

theorem agrees_endTag {v : List Char} {n : Nat} (h : '<' :: '/' :: v <:+ t)
    (ih : AgreesBehind n t) (hn : v.length < n) : Agrees (n + 1) t ('<' :: '/' :: v) := by
  have hv : v <:+ t := suffix_of_append (u := ['<', '/']) h
  have hplace : offset t ('<' :: '/' :: v) + 2 = offset t v := offset_add (u := ['<', '/']) h
  rw [Agrees, blocksIn, find?_here h, splitAt_endTag, hplace]
  simp only [turn_endTag h, bind]
  cases hcut : cut? ['>'] v with
  | none =>
    obtain ⟨m, rfl⟩ : ∃ m, n = m + 1 := ⟨n - 1, by omega⟩
    exact blocksIn_width t m
  | some p =>
    obtain ⟨c, r⟩ := p
    obtain ⟨hr, -, hnext⟩ := offset_of_cut? hv hcut
    have hlen := length_of_cut? hcut
    have hlater := ih r hr (by omega)
    rw [Agrees, ← hnext] at hlater
    simp only [Option.bind_some, ← hnext, hlater]
    rfl

theorem offset_add_sub {r : List Char} (h : s <:+ t) (hr : r <:+ s) :
    offset t s + (width s - width r) = offset t r := by
  obtain ⟨u, rfl⟩ := hr
  rw [← offset_add h, width_append]
  omega

theorem agrees_tag {u : List Char} {n : Nat} (h : '<' :: u <:+ t) (ih : AgreesBehind n t)
    (hn : u.length < n) (hcomment : ∀ v, u ≠ '!' :: '-' :: '-' :: v) (hend : ∀ v, u ≠ '/' :: v) :
    Agrees (n + 1) t ('<' :: u) := by
  have hsplit := splitAt_other (c := '<') (offset t ('<' :: u)) (fun v _ => hcomment v)
    fun v _ => hend v
  rw [Agrees, blocksIn, find?_here h, hsplit]
  simp only [turn_tag h hcomment hend, bind]
  cases hread : Tag.read? ('<' :: u) with
  | none =>
    have hlater := ih u ((List.suffix_cons _ u).trans h) hn
    rw [Agrees, ← offset_cons h (by decide)] at hlater
    simp only [Option.bind_some, ← offset_cons h (show '<'.toNat < 128 by decide), hlater]
    rfl
  | some p =>
    obtain ⟨g, r⟩ := p
    have hr : r <:+ t := (Tag.suffix_read? hread).trans h
    have hlen := Tag.length_read?_lt hread
    rw [List.length_cons] at hlen
    simp only [offset_add_sub h (Tag.suffix_read? hread)]
    cases hself : g.selfClosing with
    | true =>
      have hlater := ih r hr (by omega)
      rw [Agrees] at hlater
      simp only [if_true, Option.bind_some, hlater]
      rfl
    | false =>
      simp only [Bool.false_eq_true, if_false]
      cases hbody : content? g.name.toList (g.name == "template") 0 r with
      | none =>
        rw [← width_eq_offset h]
        rfl
      | some q =>
        obtain ⟨body, r'⟩ := q
        have hlen' := length_content?_lt hbody
        have hlater := ih r' ((suffix_content? hbody).trans hr) (by omega)
        rw [Agrees] at hlater
        simp only [Option.bind_some, offset_add_sub hr (suffix_content? hbody), hlater]
        rfl

/-- Every turn begins at a character and leaves less than it was given. -/
theorem agreesBehind (n : Nat) (t : List Char) : AgreesBehind n t := by
  induction n with
  | zero => exact fun r _ hr => absurd hr (Nat.not_lt_zero _)
  | succ n ih =>
    intro s h hn
    cases hcut : cut? ['<'] s with
    | none =>
      rw [Agrees, blocksIn, find?_offset _ h, hcut, splitAt_of_cut?_eq_none hcut]
      rfl
    | some p =>
      obtain ⟨b, u⟩ := p
      have hb : '<' ∉ b := not_mem_of_avoids (avoids_of_cut? hcut)
      obtain rfl : s = b ++ '<' :: u := by rw [eq_of_cut? hcut]; simp
      have hs : '<' :: u <:+ t := suffix_of_append h
      simp only [List.length_append, List.length_cons] at hn
      have hfirst : Agrees (n + 1) t ('<' :: u) := by
        by_cases hcomment : ∃ v, u = '!' :: '-' :: '-' :: v
        · obtain ⟨v, rfl⟩ := hcomment
          exact agrees_comment hs ih (by simp only [List.length_cons] at hn; omega)
        · by_cases hend : ∃ v, u = '/' :: v
          · obtain ⟨v, rfl⟩ := hend
            exact agrees_endTag hs ih (by simp only [List.length_cons] at hn; omega)
          · exact agrees_tag hs ih (by omega) (fun v hv => hcomment ⟨v, hv⟩)
              fun v hv => hend ⟨v, hv⟩
      rw [Agrees, blocksIn, find?_here hs] at hfirst
      rw [Agrees, blocksIn, find?_open hb h, splitAt_plain hb, offset_add h]
      exact hfirst

end Scanner

/-- The splitter by places. It has a result if no cut fails and no loop makes more turns than there
are bytes. -/
def scan (text : String) : Option Parsed := Scanner.blocksIn text.toList (turns text.toList) 0

theorem scan_eq (text : String) : scan text = some (split text) := by
  have hsuf := List.suffix_refl text.toList
  have h := Scanner.agreesBehind (turns text.toList) text.toList _ hsuf (length_lt_turns hsuf)
  rwa [Scanner.Agrees, offset, Nat.sub_self] at h

theorem Lies.slice? {t : List Char} {b : Block} (h : Lies 0 t b) :
    Text.slice? t b.span.start b.span.stop = some b.content.toList := by
  obtain ⟨p, q, rfl, hstart, hstop⟩ := h
  rw [hstop, hstart, Nat.zero_add]
  exact slice?_middle p _ q

/-- On every text the scanner ends and cuts at characters only. Each block is the text of its range,
the ranges are apart, and what a problem concerns reaches from behind the blocks to the end. -/
theorem split_sound (text : String) :
    scan text = some (split text) ∧
      (∀ b ∈ (split text).blocks,
        slice? text.toList b.span.start b.span.stop = some b.content.toList ∧
          b.lang = b.attrs.get? "lang") ∧
      ((split text).blocks.Pairwise fun a b => a.span.stop < b.span.start) ∧
      (split text).errors.length ≤ 1 ∧
      ∀ e ∈ (split text).errors, e.span.start ≤ e.span.stop ∧ e.span.stop = bytes text ∧
        ∀ b ∈ (split text).blocks, b.span.stop ≤ e.span.start := by
  have hordered := ordered_splitAt 0 text.toList
  refine ⟨scan_eq text, fun b hb => ⟨(lies_of_mem_split hb).slice?, lang_of_mem_splitAt hb⟩,
    hordered.apart, hordered.one, fun e he => ?_⟩
  obtain ⟨-, hspan, hstop, hblocks⟩ := hordered.last e he
  exact ⟨hspan, by simpa [bytes] using hstop, hblocks⟩

example : split "é<a b='ü'/></x ><p>ö</p" =
    { blocks := [⟨.custom "a", none, .ofList [("b", "ü")], ⟨13, 13⟩, ""⟩]
      errors := [⟨"Element <p> is missing end tag.", ⟨18, 26⟩⟩] } := by
  decide +kernel

end Markup

end BlockLens
