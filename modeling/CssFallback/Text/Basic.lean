/-!
# Text

A text is the list of its characters. Positions in a source are counted in bytes
of the UTF-8 form, so that a position always names the same place, whatever the
characters before it.
-/

set_option autoImplicit false

namespace CssFallback

abbrev Text := List Char

namespace Text

def byteSize : Text → Nat
  | [] => 0
  | c :: rest => c.utf8Size + byteSize rest

theorem byte_size_append (s t : Text) : byteSize (s ++ t) = byteSize s + byteSize t := by
  induction s with
  | nil => simp [byteSize]
  | cons c s ih => simp [byteSize, ih, Nat.add_assoc]

theorem byte_size_eq_zero {t : Text} (h : byteSize t = 0) : t = [] := by
  cases t with
  | nil => rfl
  | cons c t =>
    have := c.utf8Size_pos
    simp only [byteSize] at h
    omega

theorem byte_size_pos {t : Text} (h : t ≠ []) : 0 < byteSize t :=
  Nat.pos_of_ne_zero fun h0 => h (byte_size_eq_zero h0)

/-- The characters that start before a byte position. -/
def before : Nat → Text → Text
  | _, [] => []
  | position, c :: rest =>
    if position = 0 then [] else c :: before (position - c.utf8Size) rest

theorem before_byte_size (s t : Text) : before (byteSize s) (s ++ t) = s := by
  induction s with
  | nil => cases t <;> simp [byteSize, before]
  | cons c s ih =>
    have := c.utf8Size_pos
    have hne : c.utf8Size + byteSize s ≠ 0 := by omega
    rw [List.cons_append, byteSize, before, if_neg hne, Nat.add_sub_cancel_left, ih]

/-- The text from a byte position on, unless the position is inside a character or behind
the end. -/
def from? : Nat → Text → Option Text
  | 0, t => some t
  | _ + 1, [] => none
  | n + 1, c :: rest => if c.utf8Size ≤ n + 1 then from? (n + 1 - c.utf8Size) rest else none

def upTo? : Nat → Text → Option Text
  | 0, _ => some []
  | _ + 1, [] => none
  | n + 1, c :: rest =>
    if c.utf8Size ≤ n + 1 then (upTo? (n + 1 - c.utf8Size) rest).map (c :: ·) else none

/-- The text between two byte positions, unless it cannot be cut there or the second one
comes first. -/
def slice? (start stop : Nat) (t : Text) : Option Text :=
  if start ≤ stop then (t.from? start).bind (upTo? (stop - start)) else none

theorem byte_size_cons (c : Char) (t : Text) :
    ∃ n, byteSize (c :: t) = n + 1 ∧ c.utf8Size ≤ n + 1 ∧ n + 1 - c.utf8Size = byteSize t := by
  have hsize : byteSize (c :: t) = c.utf8Size + byteSize t := rfl
  have hpos := c.utf8Size_pos
  exact ⟨byteSize (c :: t) - 1, by omega, by omega, by omega⟩

theorem from_byte_size (front back : Text) : from? (byteSize front) (front ++ back) = some back := by
  induction front with
  | nil => simp [byteSize, from?]
  | cons c front ih =>
    obtain ⟨n, hn, hle, hrest⟩ := byte_size_cons c front
    rw [hn, List.cons_append, from?, if_pos hle, hrest, ih]

theorem up_to_byte_size (front back : Text) : upTo? (byteSize front) (front ++ back) = some front := by
  induction front with
  | nil => simp [byteSize, upTo?]
  | cons c front ih =>
    obtain ⟨n, hn, hle, hrest⟩ := byte_size_cons c front
    rw [hn, List.cons_append, upTo?, if_pos hle, hrest, ih, Option.map_some]

theorem slice_byte_size (front t back : Text) :
    slice? (byteSize front) (byteSize (front ++ t)) (front ++ (t ++ back)) = some t := by
  rw [slice?, byte_size_append, if_pos (Nat.le_add_right _ _), Nat.add_sub_cancel_left, from_byte_size,
    Option.bind_some, up_to_byte_size]

def joinedBy (separator : Text) : List Text → Text
  | [] => []
  | [t] => t
  | t :: ts => t ++ separator ++ joinedBy separator ts

def sameIgnoringCase (s t : Text) : Bool :=
  s.map Char.toLower == t.map Char.toLower

end Text

/-!
## Blank characters

A character is blank if it has the Unicode property `White_Space`. The set is larger
than the white space between tokens of a stylesheet: trimming a text may remove
characters that belong to a name.
-/

/-- The ranges of `White_Space`, by code point, both ends included. -/
def blankRanges : List (Nat × Nat) :=
  [(0x9, 0xD), (0x20, 0x20), (0x85, 0x85), (0xA0, 0xA0), (0x1680, 0x1680), (0x2000, 0x200A),
    (0x2028, 0x2029), (0x202F, 0x202F), (0x205F, 0x205F), (0x3000, 0x3000)]

def isBlank (c : Char) : Bool :=
  blankRanges.any fun r => r.1 ≤ c.toNat && c.toNat ≤ r.2

namespace Text

def trimStart (t : Text) : Text := t.dropWhile isBlank

def trimEnd (t : Text) : Text := (t.reverse.dropWhile isBlank).reverse

def trim (t : Text) : Text := trimEnd (trimStart t)

def leadingBlanks (t : Text) : Text := t.takeWhile isBlank

def trailingBlanks (t : Text) : Text := (t.reverse.takeWhile isBlank).reverse

theorem leading_blanks_append (t : Text) : leadingBlanks t ++ trimStart t = t :=
  List.takeWhile_append_dropWhile

theorem trim_end_append (t : Text) : trimEnd t ++ trailingBlanks t = t := by
  rw [trimEnd, trailingBlanks, ← List.reverse_append, List.takeWhile_append_dropWhile,
    List.reverse_reverse]

end Text

/-!
## Lines

A line ends with a line feed, a form feed, a carriage return, or a carriage return
and a line feed together.
-/

def isNewline (c : Char) : Bool := c == '\n' || c == '\r' || c == '\x0c'

namespace Text

def startsNewline (t : Text) : Bool := t.head?.any isNewline

/-- The number of line ends: a carriage return in front of a line feed is part of
that line end. -/
def newlines : Text → Nat
  | [] => 0
  | c :: rest =>
    (if isNewline c && !(c == '\r' && rest.head? == some '\n') then 1 else 0) + newlines rest

def line (t : Text) : Nat := 1 + newlines t

theorem newlines_append (s t : Text) (h : s.getLast? ≠ some '\r') :
    newlines (s ++ t) = newlines s + newlines t := by
  induction s with
  | nil => simp [newlines]
  | cons c s ih =>
    cases s with
    | nil =>
      have hc : c ≠ '\r' := by simpa using h
      simp [newlines, hc]
    | cons d s =>
      have tail := ih (by simpa using h)
      rw [List.cons_append, newlines, tail, newlines.eq_2 c (d :: s)]
      exact (Nat.add_assoc _ _ _).symm

end Text

end CssFallback
