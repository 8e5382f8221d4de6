import BlockLens.Proofs.Text
import BlockLens.Text.Blank
/-!
Places of a text given by the number of bytes before them. Cutting there fails inside a character
and behind the end; a single byte can be read anywhere. A class of characters that takes those
outside ASCII for one can be asked of bytes, and then a run of bytes is a run of characters.
-/

set_option autoImplicit false

namespace BlockLens.Text

def from? : List Char → Nat → Option (List Char)
  | s, 0 => some s
  | [], _ + 1 => none
  | c :: s, n + 1 => if c.utf8Size ≤ n + 1 then from? s (n + 1 - c.utf8Size) else none

def slice? (t : List Char) (i j : Nat) : Option (List Char) :=
  if i ≤ j then
    (from? t i).bind fun s => (from? s (j - i)).map fun r => s.take (s.length - r.length)
  else none

def find? (w t : List Char) (i : Nat) : Option Nat :=
  (from? t i).bind fun s => (cut? w s).map fun p => i + width p.1

def charAt? (t : List Char) (i : Nat) : Option Char :=
  (byte? (.ofList t) i).map fun b => Char.ofNat b.toNat

/-- Goes on while the bytes belong to a class, for `n` turns at most. -/
def skipIn? (p : Char → Bool) (t : List Char) : Nat → Nat → Option Nat
  | 0, _ => none
  | n + 1, i =>
    match charAt? t i with
    | none => some i
    | some c => if p c then skipIn? p t n (i + 1) else some i

def turns (t : List Char) : Nat := width t + 1

def skip? (p : Char → Bool) (t : List Char) (i : Nat) : Option Nat := skipIn? p t (turns t) i

/-- Where the end `s` of the text `t` begins. -/
def offset (t s : List Char) : Nat := width t - width s

theorem from?_width (u s : List Char) : from? (u ++ s) (width u) = some s := by
  induction u with
  | nil => cases s <;> rfl
  | cons c u ih =>
    have hc := c.utf8Size_pos
    obtain ⟨n, hn⟩ : ∃ n, width (c :: u) = n + 1 := ⟨width (c :: u) - 1, by simp [width]; omega⟩
    have hu : n + 1 - c.utf8Size = width u := by
      simp only [width] at hn
      omega
    have hle : c.utf8Size ≤ n + 1 := by
      simp only [width] at hn
      omega
    rw [hn, List.cons_append, from?, if_pos hle, hu, ih]

variable {t s r u : List Char}

theorem offset_append (u s : List Char) : offset (u ++ s) s = width u := by
  rw [offset, width_append]
  omega

theorem offset_add (h : u ++ r <:+ t) : offset t (u ++ r) + width u = offset t r := by
  obtain ⟨v, rfl⟩ := h
  simp only [offset, width_append]
  omega

theorem offset_nil (t : List Char) : offset t [] = width t := by simp [offset, width]

theorem offset_utf8Size {c : Char} (h : c :: s <:+ t) :
    offset t (c :: s) + c.utf8Size = offset t s := by
  simpa [width] using offset_add (u := [c]) h

theorem from?_offset (h : s <:+ t) : from? t (offset t s) = some s := by
  obtain ⟨u, rfl⟩ := h
  rw [offset_append, from?_width]

theorem slice?_offset (h : u ++ r <:+ t) : slice? t (offset t (u ++ r)) (offset t r) = some u := by
  have hadd := offset_add h
  have hsub : offset t r - offset t (u ++ r) = width u := by omega
  rw [slice?, if_pos (by omega), from?_offset h, Option.bind_some, hsub, from?_width]
  simp

theorem slice?_middle (p u q : List Char) :
    slice? (p ++ u ++ q) (width p) (width p + width u) = some u := by
  have hsuf : u ++ q <:+ p ++ u ++ q := ⟨p, by simp⟩
  have hstart : offset (p ++ u ++ q) (u ++ q) = width p := by rw [List.append_assoc, offset_append]
  have h := slice?_offset hsuf
  rwa [← offset_add hsuf, hstart] at h

theorem offset_takeWhile (p : Char → Bool) (h : s <:+ t) :
    offset t s + width (s.takeWhile p) = offset t (s.dropWhile p) := by
  have hs := offset_add (u := s.takeWhile p) (r := s.dropWhile p) (t := t)
  rw [List.takeWhile_append_dropWhile] at hs
  exact hs h

theorem slice?_dropWhile (p : Char → Bool) (h : s <:+ t) :
    slice? t (offset t s) (offset t (s.dropWhile p)) = some (s.takeWhile p) := by
  have hs := slice?_offset (u := s.takeWhile p) (r := s.dropWhile p) (t := t)
  rw [List.takeWhile_append_dropWhile] at hs
  exact hs h

theorem find?_offset (w : List Char) (h : s <:+ t) :
    find? w t (offset t s) = (cut? w s).map fun p => offset t (w ++ p.2) := by
  rw [find?, from?_offset h, Option.bind_some]
  cases hcut : cut? w s with
  | none => rfl
  | some p =>
    obtain ⟨b, q⟩ := p
    obtain rfl : s = b ++ (w ++ q) := by rw [eq_of_cut? hcut, List.append_assoc]
    rw [Option.map_some, Option.map_some, offset_add h]

theorem suffix_of_append (h : u ++ r <:+ t) : r <:+ t := (List.suffix_append u r).trans h

theorem offset_of_cut? {w b : List Char} (h : s <:+ t) (hcut : cut? w s = some (b, r)) :
    r <:+ t ∧ offset t (w ++ r) + width w = offset t r ∧
      offset t s + width b + width w = offset t r := by
  obtain rfl : s = b ++ (w ++ r) := by rw [eq_of_cut? hcut, List.append_assoc]
  have hw := suffix_of_append h
  refine ⟨suffix_of_append hw, offset_add hw, ?_⟩
  rw [offset_add h, offset_add hw]

theorem width_eq_offset (h : s <:+ t) : width t = offset t s + width s := by
  obtain ⟨u, rfl⟩ := h
  rw [offset_append, width_append]

theorem byte?_offset {c : Char} (h : c :: s <:+ t) {k : Nat} (hk : k < c.utf8Size) :
    byte? (.ofList t) (offset t (c :: s) + k) = (String.utf8EncodeChar c)[k]? := by
  obtain ⟨u, rfl⟩ := h
  have hmid := byte?_middle (s := u ++ c :: s) (t := [c]) (u := u) (v := s) (i := k) (by simp)
    (by simpa [width] using hk)
  rw [offset_append, hmid, byte?, String.toUTF8_eq_toByteArray, String.toByteArray_ofList,
    List.utf8Encode_singleton]
  simp

theorem charAt?_of_le {i : Nat} (h : width t ≤ i) : charAt? t i = none := by
  have hsize : (String.ofList t).toUTF8.data.size = width t := by
    rw [ByteArray.size_data, String.toUTF8_eq_toByteArray, String.toByteArray_ofList,
      size_utf8Encode]
  have hnone : byte? (.ofList t) i = none := by
    rw [byte?, Array.getElem?_eq_none_iff, hsize]
    exact h
  rw [charAt?, hnone]
  rfl

theorem charAt?_nil (t : List Char) : charAt? t (offset t []) = none :=
  charAt?_of_le (Nat.le_of_eq (offset_nil t).symm)

theorem utf8EncodeChar_of_lt {c : Char} (hc : c.toNat < 128) :
    String.utf8EncodeChar c = [UInt8.ofNat c.toNat] := by
  have hv : c.val.toNat ≤ 127 := by
    have : c.val.toNat < 128 := hc
    omega
  simp only [String.utf8EncodeChar, if_pos hv]
  rfl

theorem utf8Size_of_lt {c : Char} (hc : c.toNat < 128) : c.utf8Size = 1 := by
  rw [← String.length_utf8EncodeChar, utf8EncodeChar_of_lt hc, List.length_singleton]

theorem offset_cons {c : Char} (h : c :: s <:+ t) (hc : c.toNat < 128) :
    offset t (c :: s) + 1 = offset t s := by
  have hadd := offset_utf8Size h
  rwa [utf8Size_of_lt hc] at hadd

theorem le_of_mem_utf8EncodeChar {c : Char} (hc : 128 ≤ c.toNat) {b : UInt8}
    (hb : b ∈ String.utf8EncodeChar c) : 128 ≤ b.toNat := by
  have hv : ¬ c.val.toNat ≤ 127 := by
    have : 128 ≤ c.val.toNat := hc
    omega
  simp only [String.utf8EncodeChar, if_neg hv] at hb
  split at hb
  · simp only [List.mem_cons, List.not_mem_nil, or_false] at hb
    rcases hb with rfl | rfl <;> simp <;> omega
  · split at hb
    · simp only [List.mem_cons, List.not_mem_nil, or_false] at hb
      rcases hb with rfl | rfl | rfl <;> simp <;> omega
    · simp only [List.mem_cons, List.not_mem_nil, or_false] at hb
      rcases hb with rfl | rfl | rfl | rfl <;> simp <;> omega

theorem toNat_ofNat_byte (b : UInt8) : (Char.ofNat b.toNat).toNat = b.toNat := by
  have hlt := b.toNat_lt
  have hvalid : b.toNat.isValidChar := .inl (by omega)
  unfold Char.ofNat
  rw [dif_pos hvalid]
  rfl

/-- A byte of a character is that character, or both are outside ASCII. -/
theorem charAt?_cons {c : Char} (h : c :: s <:+ t) {k : Nat} (hk : k < c.utf8Size) :
    ∃ d, charAt? t (offset t (c :: s) + k) = some d ∧
      (d = c ∨ 128 ≤ c.toNat ∧ 128 ≤ d.toNat) := by
  have hlen : k < (String.utf8EncodeChar c).length := by rwa [String.length_utf8EncodeChar]
  have hbyte := byte?_offset h hk
  rw [List.getElem?_eq_getElem hlen] at hbyte
  refine ⟨Char.ofNat (String.utf8EncodeChar c)[k].toNat, by rw [charAt?, hbyte]; rfl, ?_⟩
  by_cases hc : c.toNat < 128
  · left
    have hmod : c.toNat % 256 = c.toNat := Nat.mod_eq_of_lt (by omega)
    simp [utf8EncodeChar_of_lt hc, hmod]
  · right
    have hb := le_of_mem_utf8EncodeChar (Nat.le_of_not_lt hc) (List.getElem_mem hlen)
    rw [toNat_ofNat_byte]
    exact ⟨Nat.le_of_not_lt hc, hb⟩

theorem charAt?_of_lt {c : Char} (h : c :: s <:+ t) (hc : c.toNat < 128) :
    charAt? t (offset t (c :: s)) = some c := by
  obtain ⟨d, hd, rfl | ⟨hle, -⟩⟩ := charAt?_cons h c.utf8Size_pos
  · exact hd
  · omega

/-- The class takes the characters outside ASCII for one. -/
def Bytewise (p : Char → Bool) : Prop := ∀ c d : Char, 128 ≤ c.toNat → 128 ≤ d.toNat → p c = p d

variable {p : Char → Bool}

theorem Bytewise.charAt? (hp : Bytewise p) {c : Char} (h : c :: s <:+ t) {k : Nat}
    (hk : k < c.utf8Size) :
    ∃ d, Text.charAt? t (offset t (c :: s) + k) = some d ∧ p d = p c := by
  obtain ⟨d, hd, rfl | ⟨hc, hd'⟩⟩ := charAt?_cons h hk
  · exact ⟨d, hd, rfl⟩
  · exact ⟨d, hd, hp d c hd' hc⟩

theorem Bytewise.not (hp : Bytewise p) : Bytewise fun c => !p c :=
  fun c d hc hd => congrArg (!·) (hp c d hc hd)

theorem Bytewise.map_charAt? (hp : Bytewise p) (h : s <:+ t) :
    (Text.charAt? t (offset t s)).map p = s.head?.map p := by
  cases s with
  | nil => rw [charAt?_nil]; rfl
  | cons c s =>
    obtain ⟨d, hd, hpd⟩ := hp.charAt? h c.utf8Size_pos
    rw [Nat.add_zero] at hd
    simp [hd, hpd]

theorem Bytewise.any_charAt? (hp : Bytewise p) (h : s <:+ t) :
    (Text.charAt? t (offset t s)).any p = s.head?.any p := by
  have hmap := congrArg (Option.any id) (hp.map_charAt? h)
  simpa [Option.any_map] using hmap

theorem Bytewise.all_charAt? (hp : Bytewise p) (h : s <:+ t) :
    (Text.charAt? t (offset t s)).all p = s.head?.all p := by
  have hmap := congrArg (Option.all id) (hp.map_charAt? h)
  simpa [Option.all_map] using hmap

/-- A run of bytes ends where the run of characters does. -/
theorem Bytewise.skipIn? (hp : Bytewise p) (h : s <:+ t) {n : Nat} (hn : width s < n) :
    Text.skipIn? p t n (offset t s) = some (offset t (s.dropWhile p)) := by
  obtain ⟨m, rfl⟩ : ∃ m, n = m + 1 + width s := ⟨n - 1 - width s, by omega⟩
  induction s with
  | nil => rw [width, Text.skipIn?, charAt?_nil, List.dropWhile_nil]
  | cons c s ih =>
    have hs : s <:+ t := (List.suffix_cons c s).trans h
    have hadd := offset_utf8Size h
    cases hc : p c with
    | false =>
      obtain ⟨d, hd, hpd⟩ := hp.charAt? h c.utf8Size_pos
      rw [Nat.add_zero] at hd
      rw [Nat.add_right_comm, Text.skipIn?, hd]
      simp [hpd, hc]
    | true =>
      -- the bytes of one character, one turn each
      have hbytes : ∀ k ≤ c.utf8Size,
          Text.skipIn? p t (m + 1 + width (c :: s)) (offset t (c :: s)) =
            Text.skipIn? p t (m + 1 + (width (c :: s) - k)) (offset t (c :: s) + k) := by
        intro k hk
        induction k with
        | zero => rfl
        | succ k ihk =>
          obtain ⟨d, hd, hpd⟩ := hp.charAt? h (show k < c.utf8Size by omega)
          have hturn : m + 1 + (width (c :: s) - k) = m + 1 + (width (c :: s) - (k + 1)) + 1 := by
            simp only [width]
            omega
          rw [ihk (by omega), hturn, Text.skipIn?, hd]
          simp [hpd, hc, Nat.add_assoc]
      have hrest : width (c :: s) - c.utf8Size = width s := by
        simp only [width]
        omega
      rw [hbytes _ (Nat.le_refl _), hadd, hrest, ih hs (by omega), List.dropWhile_cons, hc,
        if_pos rfl]

theorem width_lt_turns (h : s <:+ t) : width s < turns t := by
  obtain ⟨u, rfl⟩ := h
  rw [turns, width_append]
  omega

theorem length_lt_turns (h : s <:+ t) : s.length < turns t :=
  Nat.lt_of_le_of_lt (length_le_width s) (width_lt_turns h)

theorem Bytewise.skip? (hp : Bytewise p) (h : s <:+ t) :
    Text.skip? p t (offset t s) = some (offset t (s.dropWhile p)) :=
  hp.skipIn? h (width_lt_turns h)

def Narrow (p : Char → Bool) : Prop := ∀ c, p c = true → c.toNat < 128

theorem Narrow.eq_false (hp : Narrow p) {c : Char} (hc : 128 ≤ c.toNat) : p c = false := by
  cases h : p c with
  | false => rfl
  | true =>
    have := hp c h
    omega

theorem Narrow.bytewise (hp : Narrow p) : Bytewise p := fun _ _ hc hd => by
  rw [hp.eq_false hc, hp.eq_false hd]

theorem Narrow.filter_charAt? (hp : Narrow p) (h : s <:+ t) :
    (Text.charAt? t (offset t s)).filter p = s.head?.filter p := by
  cases s with
  | nil => rw [charAt?_nil]; rfl
  | cons c s =>
    obtain ⟨d, hd, rfl | ⟨hc, hd'⟩⟩ := charAt?_cons h c.utf8Size_pos
    · rw [Nat.add_zero] at hd
      rw [hd, List.head?_cons]
    · rw [Nat.add_zero] at hd
      rw [hd, List.head?_cons, Option.filter_some, Option.filter_some, hp.eq_false hc,
        hp.eq_false hd']
      rfl

theorem narrow_beq {x : Char} (hx : x.toNat < 128) : Narrow (· == x) := by
  intro c hc
  rwa [beq_iff_eq.1 hc]

theorem narrow_or {p q : Char → Bool} (hp : Narrow p) (hq : Narrow q) :
    Narrow fun c => p c || q c := by
  intro c hc
  rcases Bool.or_eq_true_iff.1 hc with h | h
  · exact hp c h
  · exact hq c h

theorem narrow_isAlpha : Narrow Char.isAlpha :=
  fun c hc => toNat_lt_of_isAlphanum (by rw [Char.isAlphanum, hc, Bool.true_or])

theorem narrow_isDigit : Narrow Char.isDigit :=
  fun c hc => toNat_lt_of_isAlphanum (by rw [Char.isAlphanum, hc, Bool.or_true])

theorem narrow_isBlank : Narrow isBlank := by
  intro c hc
  simp only [isBlank, Bool.or_eq_true, beq_iff_eq] at hc
  rcases hc with (((rfl | rfl) | rfl) | rfl) | rfl <;> decide

end BlockLens.Text
