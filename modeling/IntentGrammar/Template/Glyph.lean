import IntentGrammar.Text.Blank

/-!
# Numbered characters

A template is read as a list of glyphs: characters that know their place in the text.  A fault
is reported at the place of a glyph, so no reader has to count.
-/

namespace IntentGrammar.Template

/-- A character and its place in the text. -/
structure Glyph where
  char : Char
  pos : Nat
deriving DecidableEq, Repr

namespace Glyph

/-- The glyph is a blank. -/
def isBlank (g : Glyph) : Bool := Text.isBlank g.char

/-- Number the characters of a text from `start` on. -/
def number (start : Nat) : List Char → List Glyph
  | [] => []
  | c :: cs => ⟨c, start⟩ :: number (start + 1) cs

/-- The characters of some glyphs. -/
def chars (gs : List Glyph) : List Char := gs.map (·.char)

/-- The text of some glyphs. -/
def text (gs : List Glyph) : String := String.ofList (chars gs)

@[simp] theorem chars_number (start : Nat) (cs : List Char) : chars (number start cs) = cs := by
  induction cs generalizing start with
  | nil => rfl
  | cons c cs ih => simpa [number, chars] using ih (start + 1)

theorem length_chars (gs : List Glyph) : (chars gs).length = gs.length := List.length_map _

theorem chars_append (gs hs : List Glyph) : chars (gs ++ hs) = chars gs ++ chars hs :=
  List.map_append

theorem chars_takeWhile (p : Char → Bool) (gs : List Glyph) :
    chars (gs.takeWhile fun g => p g.char) = (chars gs).takeWhile p :=
  List.takeWhile_map.symm

theorem chars_dropWhile (p : Char → Bool) (gs : List Glyph) :
    chars (gs.dropWhile fun g => p g.char) = (chars gs).dropWhile p :=
  List.dropWhile_map.symm

theorem chars_trim (gs : List Glyph) :
    chars (Text.trim isBlank gs) = Text.trim Text.isBlank (chars gs) := by
  have hdrop (hs : List Glyph) : chars (hs.dropWhile isBlank) = (chars hs).dropWhile Text.isBlank :=
    chars_dropWhile Text.isBlank hs
  have hreverse (hs : List Glyph) : chars hs.reverse = (chars hs).reverse := List.map_reverse
  rw [Text.trim, Text.trim, hreverse, hdrop, hreverse, hdrop]

theorem number_append (start : Nat) (cs ds : List Char) :
    number start (cs ++ ds) = number start cs ++ number (start + cs.length) ds := by
  induction cs generalizing start with
  | nil => rfl
  | cons c cs ih => simp [number, ih, Nat.add_assoc, Nat.add_comm 1]

end Glyph

end IntentGrammar.Template
