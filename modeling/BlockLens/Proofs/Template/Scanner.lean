import BlockLens.Proofs.Markup.Sound
import BlockLens.Proofs.Template.Expressions
import BlockLens.Proofs.Template.Reader

set_option autoImplicit false

namespace BlockLens.Template

open Text Markup
open Markup.Scanner (narrow_isQuote narrow_keyEnd bytewise_isKeyChar any_offset isNone_charAt?
  offset_add_sub startsWith_append startsWith_eq_false)

namespace Scanner

variable (t : List Char)

def seek (w : List Char) (i : Nat) : Option (Option Nat) :=
  (from? t i).map fun _ => find? w t i

/-- What a turn finds and where the next one begins; or that it is the last and finds nothing. -/
inductive Turn where
  | go (found : List Span) (next : Nat)
  | last

def value (key : List Char) (i : Nat) : Option Turn :=
  match (charAt? t i).filter Tag.isQuote with
  | none => some (.go [] i)
  | some q => do
    match ← seek t [q] (i + 1) with
    | none => return .last
    | some j =>
      let v ← slice? t (i + 1) j
      return .go (if isBound key && !isVoid v then [⟨i + 1, j⟩] else []) (j + 1)

def item (i : Nat) : Option Turn := do
  let j ← skip? Tag.isKeyChar t i
  if j = i then return .go [] (i + 1)
  else
    let key ← slice? t i j
    if (charAt? t j).any (· == '=') then value t key (j + 1)
    else return .go [] j

def attributesIn : Nat → Nat → Option (List Span × Nat)
  | 0, _ => none
  | n + 1, i => do
    let i ← skip? isGap t i
    if (charAt? t i).isNone then return ([], i)
    else if (charAt? t i).any (· == '>') then return ([], i + 1)
    else
      match ← item t i with
      | .last => return ([], width t)
      | .go found j =>
        let p ← attributesIn n j
        return (found ++ p.1, p.2)

def tag (i : Nat) : Option (List Span × Nat) := do
  attributesIn t (turns t) (← skip? isTagChar t i)

def turn (i : Nat) : Option Turn := do
  let s ← from? t i
  if startsWith ['<', '!', '-', '-'] s then
    match ← seek t ['-', '-', '>'] i with
    | some j => return .go [] (j + 3)
    | none => return .go [] (width t)
  else if startsWith ['{', '{'] s then
    match ← seek t ['}', '}'] (i + 2) with
    | some j =>
      let body ← slice? t (i + 2) j
      return .go (if isVoid body then [] else [⟨i + 2, j⟩]) (j + 2)
    | none => return .last
  else if (charAt? t i).any (· == '<') && (charAt? t (i + 1)).any Char.isAlpha then
    let p ← tag t (i + 1)
    return .go p.1 p.2
  else return .go [] (i + (s.head?.map Char.utf8Size).getD 1)

def expressionsIn : Nat → Nat → Option (List Span)
  | 0, _ => none
  | n + 1, i =>
    if width t ≤ i then some []
    else do
      match ← turn t i with
      | .last => return []
      | .go found j => return found ++ (← expressionsIn n j)

variable {t} {s : List Char}

theorem bytewise_isGap : Bytewise isGap :=
  (narrow_or narrow_isBlank (narrow_beq (by decide))).bytewise

theorem bytewise_isTagChar : Bytewise isTagChar :=
  (narrow_or (narrow_or narrow_isBlank (narrow_beq (by decide))) (narrow_beq (by decide))).bytewise.not

theorem seek_offset (w : List Char) (h : s <:+ t) :
    seek t w (offset t s) = some ((cut? w s).map fun p => offset t (w ++ p.2)) := by
  rw [seek, from?_offset h, find?_offset w h]
  rfl

def Turn.Agrees (t : List Char) (found : List Excerpt) (rest : List Char) : Turn → Prop
  | .go es next => es = found.map Excerpt.span ∧ next = offset t rest
  | .last => found = [] ∧ rest = []

def readValue (o : Nat) (key : List Char) : List Char → Option Excerpt × List Char
  | [] => (none, [])
  | q :: s =>
    if Tag.isQuote q then
      match cut? [q] s with
      | some (v, r) => (if isBound key && !isVoid v then some ⟨o + width key + 2, v⟩ else none, r)
      | none => (none, [])
    else (none, q :: s)

theorem readAttribute_valued {o : Nat} {c : Char} {u r : List Char} (hc : Tag.isKeyChar c = true)
    (hr : u.dropWhile Tag.isKeyChar = '=' :: r) :
    readAttribute o c u = readValue o (c :: u.takeWhile Tag.isKeyChar) r := by
  rw [readAttribute, if_pos hc, hr]
  cases r <;> rfl

theorem readAttribute_bare {o : Nat} {c : Char} {u : List Char} (hc : Tag.isKeyChar c = true)
    (hr : ∀ r, u.dropWhile Tag.isKeyChar ≠ '=' :: r) :
    readAttribute o c u = (none, u.dropWhile Tag.isKeyChar) := by
  rw [readAttribute, if_pos hc]
  split
  · next h => exact absurd h (hr _)
  · next h => exact absurd h (hr _)
  · rfl

theorem value_offset {o : Nat} {key : List Char} (h : s <:+ t) (ho : o + width key + 1 = offset t s) :
    ∃ a, value t key (offset t s) = some a ∧
      a.Agrees t (readValue o key s).1.toList (readValue o key s).2 := by
  rw [value, narrow_isQuote.filter_charAt? h]
  cases s with
  | nil => exact ⟨.go [] (offset t []), rfl, rfl, rfl⟩
  | cons q s =>
    rw [List.head?_cons, Option.filter_some, readValue]
    cases hq : Tag.isQuote q with
    | false => exact ⟨.go [] (offset t (q :: s)), rfl, rfl, rfl⟩
    | true =>
      have hs : s <:+ t := (List.suffix_cons q s).trans h
      have hplace : offset t (q :: s) + 1 = offset t s := offset_cons h (narrow_isQuote q hq)
      simp only [if_true, hplace, seek_offset _ hs]
      cases hcut : cut? [q] s with
      | none => exact ⟨.last, rfl, rfl, rfl⟩
      | some p =>
        obtain ⟨v, r⟩ := p
        have hstart : o + width key + 2 = offset t s := by omega
        obtain rfl : s = v ++ (q :: r) := by rw [eq_of_cut? hcut]; simp
        have hr := suffix_of_append hs
        refine ⟨.go (if isBound key && !isVoid v then [⟨offset t (v ++ q :: r), offset t (q :: r)⟩]
          else []) (offset t r), ?_, ?_, rfl⟩
        · simp only [bind, Option.bind_some, Option.map_some, List.cons_append, List.nil_append,
            slice?_offset hs, offset_cons hr (narrow_isQuote q hq)]
          rfl
        · rw [← offset_add hs, hstart]
          dsimp only
          cases isBound key && !isVoid v <;> rfl

theorem item_offset {c : Char} {u : List Char} (h : c :: u <:+ t) :
    ∃ a, item t (offset t (c :: u)) = some a ∧
      a.Agrees t (readAttribute (offset t (c :: u)) c u).1.toList
        (readAttribute (offset t (c :: u)) c u).2 := by
  rw [item, bytewise_isKeyChar.skip? h]
  cases hk : Tag.isKeyChar c with
  | false =>
    -- a character that begins no key is one byte
    have hc : c.toNat < 128 := narrow_keyEnd c ((Bool.not_eq_false' _).mp hk)
    rw [readAttribute, if_neg (by simp [hk])]
    refine ⟨.go [] (offset t u), ?_, rfl, rfl⟩
    simp only [bind, Option.bind_some, List.dropWhile_cons, hk, Bool.false_eq_true, if_false,
      if_true, offset_cons h hc]
    rfl
  | true =>
    have htake : (c :: u).takeWhile Tag.isKeyChar = c :: u.takeWhile Tag.isKeyChar := by simp [hk]
    have hdrop : (c :: u).dropWhile Tag.isKeyChar = u.dropWhile Tag.isKeyChar := by simp [hk]
    have hadd := offset_takeWhile Tag.isKeyChar h
    have hslice := slice?_dropWhile Tag.isKeyChar h
    have hr : u.dropWhile Tag.isKeyChar <:+ t :=
      ((List.dropWhile_suffix _).trans (List.suffix_cons c u)).trans h
    have hpos : 0 < width (c :: u.takeWhile Tag.isKeyChar) := width_pos (by simp)
    rw [htake, hdrop] at hadd hslice
    have hne : offset t (u.dropWhile Tag.isKeyChar) ≠ offset t (c :: u) := by omega
    simp only [bind, Option.bind_some, hdrop, hne, if_false, hslice,
      any_offset (x := '=') (by decide) hr]
    by_cases hsign : ∃ r, u.dropWhile Tag.isKeyChar = '=' :: r
    · obtain ⟨r, hsign⟩ := hsign
      rw [readAttribute_valued hk hsign]
      rw [hsign] at hr hadd ⊢
      have hplace : offset t ('=' :: r) + 1 = offset t r := offset_cons hr (by decide)
      simp only [List.head?_cons, Option.any_some, beq_self_eq_true, if_true, hplace]
      exact value_offset ((List.suffix_cons _ r).trans hr) (by omega)
    · have hfalse : (u.dropWhile Tag.isKeyChar).head?.any (· == '=') = false := by
        refine Bool.eq_false_iff.2 fun hany => ?_
        obtain ⟨d, hd, hsign'⟩ := (Option.any_eq_true _ _).1 hany
        rw [beq_iff_eq.1 hsign'] at hd
        obtain ⟨r, hr⟩ := List.head?_eq_some_iff.1 hd
        exact hsign ⟨r, hr⟩
      rw [readAttribute_bare hk fun r hr => hsign ⟨r, hr⟩, hfalse]
      exact ⟨_, rfl, rfl, rfl⟩

theorem suffix_readAttribute (o : Nat) (c : Char) (u : List Char) :
    (readAttribute o c u).2 <:+ c :: u := by
  obtain ⟨p, hp, -⟩ := stands_readAttribute o c u
  exact ⟨p, hp.symm⟩

theorem attributesIn_offset (h : s <:+ t) {n : Nat} (hn : s.length < n) :
    attributesIn t n (offset t s) =
      some ((readAttributes (offset t s) s).1.map Excerpt.span,
        offset t (readAttributes (offset t s) s).2) := by
  induction n generalizing s with
  | zero => omega
  | succ n ih =>
    have hlen := length_dropWhile_le isGap s
    have hd : s.dropWhile isGap <:+ t := (List.dropWhile_suffix _).trans h
    rw [attributesIn, bytewise_isGap.skip? h, readAttributes_eq, offset_takeWhile isGap h]
    simp only [bind, Option.bind_some]
    cases hs : s.dropWhile isGap with
    | nil =>
      rw [charAt?_nil]
      rfl
    | cons c u =>
      rw [hs] at hd hlen
      simp only [isNone_charAt? hd, any_offset (x := '>') (by decide) hd, List.head?_cons,
        Option.any_some, Bool.false_eq_true, if_false]
      by_cases hc : c = '>'
      · subst hc
        simp only [beq_self_eq_true, if_true, offset_cons hd (by decide)]
        rfl
      · obtain ⟨a, ha, hagrees⟩ := item_offset hd
        have hsuf := suffix_readAttribute (offset t (c :: u)) c u
        have hshort := length_readAttribute_le (offset t (c :: u)) c u
        simp only [List.length_cons] at hlen
        simp only [beq_eq_false_iff_ne.2 hc, Bool.false_eq_true, if_false, hc, ha, Option.bind_some,
          offset_add_sub hd hsuf]
        cases a with
        | last =>
          obtain ⟨hfound, hrest⟩ := hagrees
          rw [hfound, hrest, readAttributes_eq]
          rfl
        | go found next =>
          obtain ⟨rfl, rfl⟩ := hagrees
          simp only [ih (hsuf.trans hd) (by omega), Option.bind_some, List.map_append]
          rfl

/-- The turn before `s` finds what the reader finds there, and leaves `r`, which is shorter. -/
structure Reads (t s : List Char) (a : Turn) (found : List Excerpt) (r : List Char) : Prop where
  turn : turn t (offset t s) = some a
  agrees : a.Agrees t found r
  reads : expressionsFrom (offset t s) s = found ++ expressionsFrom (offset t r) r
  suffix : r <:+ s
  shorter : r.length < s.length

theorem expressionsFrom_nil (o : Nat) : expressionsFrom o [] = [] := by rw [expressionsFrom]

theorem reads_comment {v : List Char} (h : '<' :: '!' :: '-' :: '-' :: v <:+ t) :
    ∃ a found r, Reads t ('<' :: '!' :: '-' :: '-' :: v) a found r := by
  have hv : '!' :: '-' :: '-' :: v <:+ t := (List.suffix_cons _ _).trans h
  have hplace : offset t ('<' :: '!' :: '-' :: '-' :: v) + 1 = offset t ('!' :: '-' :: '-' :: v) :=
    offset_cons h (by decide)
  have hstart : startsWith ['<', '!', '-', '-'] ('<' :: '!' :: '-' :: '-' :: v) = true :=
    startsWith_append _ v
  have hseek : seek t ['-', '-', '>'] (offset t ('<' :: '!' :: '-' :: '-' :: v)) =
      some ((cut? ['-', '-', '>'] ('!' :: '-' :: '-' :: v)).map fun p =>
        offset t (['-', '-', '>'] ++ p.2)) := by
    have hcut := cut?_of_avoids (w := ['-', '-', '>']) (p := ['<'])
      (avoids_of_not_mem (by decide) ('!' :: '-' :: '-' :: v))
    rw [List.cons_append, List.nil_append] at hcut
    rw [seek_offset _ h, hcut, Option.map_map]
    rfl
  cases hcut : cut? ['-', '-', '>'] ('!' :: '-' :: '-' :: v) with
  | none =>
    refine ⟨.go [] (width t), [], [], ?_, ⟨rfl, (offset_nil t).symm⟩, ?_, List.nil_suffix, by simp⟩
    · rw [turn, from?_offset h]
      simp only [bind, Option.bind_some, hstart, if_true, hseek, hcut]
      rfl
    · rw [expressionsFrom_open _ (.inl ⟨rfl, hcut⟩), expressionsFrom_nil]
      rfl
  | some p =>
    obtain ⟨c, r⟩ := p
    obtain ⟨-, hword, hnext⟩ := offset_of_cut? hv hcut
    have hlen := length_of_cut? hcut
    have hr : r <:+ '!' :: '-' :: '-' :: v := ⟨c ++ ['-', '-', '>'], (eq_of_cut? hcut).symm⟩
    have hw : width ['-', '-', '>'] = 3 := rfl
    rw [hw] at hword hnext
    refine ⟨.go [] (offset t r), [], r, ?_, ⟨rfl, rfl⟩, ?_, hr.trans (List.suffix_cons _ _), ?_⟩
    · rw [turn, from?_offset h]
      simp only [bind, Option.bind_some, hstart, if_true, hseek, hcut, Option.map_some, hword]
      rfl
    · rw [expressionsFrom_comment _ hcut, hplace, hnext]
      rfl
    · simp only [List.length_cons] at *
      omega

theorem reads_interpolation {v : List Char} (h : '{' :: '{' :: v <:+ t) :
    ∃ a found r, Reads t ('{' :: '{' :: v) a found r := by
  have hv : v <:+ t := suffix_of_append (u := ['{', '{']) h
  have hplace : offset t ('{' :: '{' :: v) + 2 = offset t v := offset_add (u := ['{', '{']) h
  have hcomment : startsWith ['<', '!', '-', '-'] ('{' :: '{' :: v) = false :=
    startsWith_eq_false (by simp)
  have hstart : startsWith ['{', '{'] ('{' :: '{' :: v) = true := startsWith_append _ v
  cases hcut : cut? ['}', '}'] v with
  | none =>
    refine ⟨.last, [], [], ?_, ⟨rfl, rfl⟩, ?_, List.nil_suffix, by simp⟩
    · rw [turn, from?_offset h]
      simp only [bind, Option.bind_some, hcomment, hstart, Bool.false_eq_true, if_false, if_true,
        hplace, seek_offset _ hv, hcut]
      rfl
    · rw [expressionsFrom_open _ (.inr ⟨rfl, hcut⟩), expressionsFrom_nil]
      rfl
  | some p =>
    obtain ⟨e, r⟩ := p
    obtain ⟨-, hword, hnext⟩ := offset_of_cut? hv hcut
    have hlen := length_of_cut? hcut
    have hsplit : v = e ++ (['}', '}'] ++ r) := by rw [eq_of_cut? hcut, List.append_assoc]
    have hbody : offset t v + width e = offset t (['}', '}'] ++ r) := by
      rw [hsplit] at hv ⊢
      exact offset_add hv
    have hslice : slice? t (offset t v) (offset t (['}', '}'] ++ r)) = some e := by
      rw [hsplit] at hv ⊢
      exact slice?_offset hv
    have hw : width ['}', '}'] = 2 := rfl
    rw [hw] at hword hnext
    refine ⟨.go (if isVoid e then [] else [⟨offset t v, offset t (['}', '}'] ++ r)⟩]) (offset t r),
      if Visible e then [⟨offset t v, e⟩] else [], r, ?_, ⟨?_, rfl⟩, ?_, ?_, ?_⟩
    · rw [turn, from?_offset h]
      simp only [bind, Option.bind_some, hcomment, hstart, Bool.false_eq_true, if_false, if_true,
        hplace, seek_offset _ hv, hcut, Option.map_some, hslice, hword]
      rfl
    · rw [← hbody]
      cases he : isVoid e <;> simp [← isVoid_eq_false, he, Excerpt.span]
    · rw [expressionsFrom_interpolation _ hcut, hplace, hnext]
    · exact ⟨'{' :: '{' :: (e ++ ['}', '}']), by rw [hsplit]; simp⟩
    · simp only [List.length_cons] at *
      omega

theorem suffix_readAttributes (o : Nat) (s : List Char) : (readAttributes o s).2 <:+ s := by
  obtain ⟨p, hp, -⟩ := stands_readAttributes o s
  exact ⟨p, hp.symm⟩

theorem reads_tag {c : Char} {v : List Char} (hc : c.isAlpha = true) (h : '<' :: c :: v <:+ t) :
    ∃ a found r, Reads t ('<' :: c :: v) a found r := by
  have hv : c :: v <:+ t := (List.suffix_cons _ _).trans h
  have hplace : offset t ('<' :: c :: v) + 1 = offset t (c :: v) := offset_cons h (by decide)
  have hcomment : startsWith ['<', '!', '-', '-'] ('<' :: c :: v) = false := by
    refine startsWith_eq_false fun r hr => ?_
    obtain rfl : c = '!' := (List.cons.inj (List.cons.inj hr).2).1
    contradiction
  have hbrace : startsWith ['{', '{'] ('<' :: c :: v) = false := startsWith_eq_false (by simp)
  have hname : (c :: v).dropWhile isTagChar <:+ c :: v := List.dropWhile_suffix _
  have hskip := bytewise_isTagChar.skip? hv
  have hreads := expressionsFrom_tag (offset t ('<' :: c :: v)) hc v
  rw [hplace, offset_takeWhile isTagChar hv] at hreads
  generalize (c :: v).dropWhile isTagChar = w at hname hskip hreads
  have hw : w <:+ t := hname.trans hv
  have hrest := (suffix_readAttributes (offset t w) w).trans hname
  have hsuf := hrest.trans (List.suffix_cons '<' _)
  simp only [offset_add_sub h hsuf] at hreads
  refine ⟨.go _ _, (readAttributes (offset t w) w).1, _, ?_, ⟨rfl, rfl⟩, hreads, hsuf,
    Nat.lt_succ_of_le hrest.length_le⟩
  rw [turn, from?_offset h]
  simp only [bind, Option.bind_some, hcomment, hbrace, Bool.false_eq_true, if_false,
    any_offset (x := '<') (by decide) h, hplace, narrow_isAlpha.bytewise.any_charAt? hv,
    List.head?_cons, Option.any_some, beq_self_eq_true, hc, Bool.and_self, if_true, tag, hskip,
    attributesIn_offset hw (length_lt_turns hw)]
  rfl

theorem reads_other {c : Char} {v : List Char} (h : c :: v <:+ t)
    (htag : c = '<' → (∀ u, v ≠ '!' :: '-' :: '-' :: u) ∧ ∀ d ∈ v.head?, d.isAlpha = false)
    (hbrace : c = '{' → v.head? ≠ some '{') : ∃ a found r, Reads t (c :: v) a found r := by
  have hv : v <:+ t := (List.suffix_cons c v).trans h
  have hplace := offset_utf8Size h
  have hcomment : startsWith ['<', '!', '-', '-'] (c :: v) = false := by
    refine startsWith_eq_false fun r hr => ?_
    obtain ⟨rfl, rfl⟩ := List.cons.inj hr
    exact (htag rfl).1 r rfl
  have hbraces : startsWith ['{', '{'] (c :: v) = false := by
    refine startsWith_eq_false fun r hr => ?_
    obtain ⟨rfl, rfl⟩ := List.cons.inj hr
    exact hbrace rfl rfl
  have hopen : ((charAt? t (offset t (c :: v))).any (· == '<') &&
      (charAt? t (offset t (c :: v) + 1)).any Char.isAlpha) = false := by
    rw [any_offset (by decide) h, List.head?_cons, Option.any_some]
    cases hc : c == '<' with
    | false => rfl
    | true =>
      obtain rfl := beq_iff_eq.1 hc
      rw [offset_cons h (by decide), narrow_isAlpha.bytewise.any_charAt? hv, Bool.true_and,
        Bool.eq_false_iff]
      intro hany
      obtain ⟨d, hd, halpha⟩ := (Option.any_eq_true _ _).1 hany
      rw [(htag rfl).2 d hd] at halpha
      contradiction
  refine ⟨.go [] (offset t v), [], v, ?_, ⟨rfl, rfl⟩, ?_, List.suffix_cons c v, by simp⟩
  · rw [turn, from?_offset h]
    simp only [bind, Option.bind_some, hcomment, hbraces, hopen, Bool.false_eq_true, if_false,
      List.head?_cons, Option.map_some, Option.getD_some, hplace]
    rfl
  · rw [expressionsFrom_other _ htag hbrace, hplace]
    rfl

/-- Every turn begins at a character. -/
theorem exists_reads {c : Char} {v : List Char} (h : c :: v <:+ t) :
    ∃ a found r, Reads t (c :: v) a found r := by
  by_cases hcomment : ∃ u, c :: v = '<' :: '!' :: '-' :: '-' :: u
  · obtain ⟨u, hu⟩ := hcomment
    rw [hu] at h ⊢
    exact reads_comment h
  · by_cases hbrace : ∃ u, c :: v = '{' :: '{' :: u
    · obtain ⟨u, hu⟩ := hbrace
      rw [hu] at h ⊢
      exact reads_interpolation h
    · by_cases htag : ∃ d u, c :: v = '<' :: d :: u ∧ d.isAlpha = true
      · obtain ⟨d, u, hu, hd⟩ := htag
        rw [hu] at h ⊢
        exact reads_tag hd h
      · refine reads_other h ?_ ?_
        · rintro rfl
          refine ⟨fun u hu => hcomment ⟨u, by rw [hu]⟩, fun d hd => ?_⟩
          obtain ⟨u, rfl⟩ := List.head?_eq_some_iff.1 hd
          exact Bool.eq_false_iff.2 fun halpha => htag ⟨d, u, rfl, halpha⟩
        · rintro rfl hhead
          obtain ⟨u, rfl⟩ := List.head?_eq_some_iff.1 hhead
          exact hbrace ⟨u, rfl⟩

theorem expressionsIn_offset (h : s <:+ t) {n : Nat} (hn : s.length < n) :
    expressionsIn t n (offset t s) = some ((expressionsFrom (offset t s) s).map Excerpt.span) := by
  induction n generalizing s with
  | zero => omega
  | succ n ih =>
    cases s with
    | nil =>
      have hend : width t ≤ offset t [] := Nat.le_of_eq (offset_nil t).symm
      rw [expressionsIn, if_pos hend, expressionsFrom_nil, List.map_nil]
    | cons c v =>
      have hwidth := width_eq_offset h
      have hpos : 0 < width (c :: v) := width_pos (by simp)
      obtain ⟨a, found, r, hr⟩ := exists_reads h
      have hshort := hr.shorter
      have hagrees := hr.agrees
      rw [expressionsIn, if_neg (by omega), hr.turn, hr.reads]
      cases a with
      | last =>
        obtain ⟨rfl, rfl⟩ := hagrees
        rw [expressionsFrom_nil]
        rfl
      | go es next =>
        obtain ⟨rfl, rfl⟩ := hagrees
        simp only [bind, Option.bind_some, ih (hr.suffix.trans h) (by omega), List.map_append]
        rfl

end Scanner

def scanExpressions (content : String) : Option (List Span) :=
  Scanner.expressionsIn content.toList (turns content.toList) 0

theorem scanExpressions_eq (content : String) :
    scanExpressions content = some ((expressions content).map Excerpt.span) := by
  have hsuf := List.suffix_refl content.toList
  have h := Scanner.expressionsIn_offset hsuf (length_lt_turns hsuf)
  rwa [offset, Nat.sub_self] at h

end BlockLens.Template
