import IntentGrammar.Template.Bracket

/-!
# Tag assignments

A tag block holds assignments `name = value`.  Only the names mark where one assignment ends and
the next begins: a value runs up to the next name that is followed by an equals sign.

* `nameBefore?` reads a name and its equals sign;
* `cutAtNames` splits a block into the text in front of the first assignment and the assignments;
* `dedent` trims a value and removes the margin that its further lines share.
-/

namespace IntentGrammar.Template

/-- Characters of a tag name. -/
def isNameChar (c : Char) : Bool := c.isAlphanum || c == '_' || c == '-'

/-- A name of characters of the class `p` followed by an equals sign, with blanks around the name
allowed; the second part is what follows the sign. -/
def nameBefore? (p : Char → Bool) (gs : List Glyph) : Option (List Glyph × List Glyph) :=
  let start := gs.dropWhile Glyph.isBlank
  let name := start.takeWhile fun g => p g.char
  let behind := (start.dropWhile fun g => p g.char).dropWhile Glyph.isBlank
  match name, behind with
  | [], _ | _, [] => none
  | _, sign :: value => if sign.char = '=' then some (name, value) else none

theorem length_of_nameBefore? {p : Char → Bool} {gs name value : List Glyph}
    (h : nameBefore? p gs = some (name, value)) : value.length < gs.length := by
  have h₁ := (List.dropWhile_suffix (l := gs) Glyph.isBlank).length_le
  have h₂ := (List.dropWhile_suffix (l := gs.dropWhile Glyph.isBlank)
    fun g => p g.char).length_le
  have h₃ := (List.dropWhile_suffix
    (l := (gs.dropWhile Glyph.isBlank).dropWhile fun g => p g.char) Glyph.isBlank).length_le
  simp only [nameBefore?] at h
  split at h
  · simp at h
  · simp at h
  · next hb _ =>
    rw [hb] at h₃
    split at h
    · cases h
      simp only [List.length_cons] at h₃
      omega
    · simp at h

/-- Split a block at its assignments: the text in front of the first one, then the names with
the texts assigned to them. -/
def cutAtNames (gs : List Glyph) : List Glyph × List (List Glyph × List Glyph) :=
  match _h : nameBefore? isNameChar gs with
  | some (name, rest) =>
    let (value, more) := cutAtNames rest
    ([], (name, value) :: more)
  | none =>
    match gs with
    | [] => ([], [])
    | g :: gs =>
      let (text, more) := cutAtNames gs
      (g :: text, more)
termination_by gs.length
decreasing_by
  · exact length_of_nameBefore? _h
  · simp

section

variable {gs name rest : List Glyph}

theorem cutAtNames_name (h : nameBefore? isNameChar gs = some (name, rest)) :
    cutAtNames gs = ([], (name, (cutAtNames rest).1) :: (cutAtNames rest).2) := by
  rw [cutAtNames]
  split
  · next h' =>
    cases h.symm.trans h'
    rfl
  · next h' => cases h.symm.trans h'

theorem cutAtNames_nil : cutAtNames [] = ([], []) := by
  rw [cutAtNames]
  rfl

theorem cutAtNames_cons {g : Glyph} (h : nameBefore? isNameChar (g :: gs) = none) :
    cutAtNames (g :: gs) = (g :: (cutAtNames gs).1, (cutAtNames gs).2) := by
  rw [cutAtNames]
  split
  · next h' => cases h.symm.trans h'
  · rfl

end

/-- Spaces and tabs, which make up the margin of a line. -/
def isMargin (c : Char) : Bool := c == ' ' || c == '\t'

theorem isBlank_of_isMargin {c : Char} (h : isMargin c = true) : Text.isBlank c = true := by
  rw [isMargin, Bool.or_eq_true, beq_iff_eq, beq_iff_eq] at h
  obtain rfl | rfl := h <;> rfl

/-- What two margins have in common. -/
def sharedMargin : List Char → List Char → List Char
  | c :: cs, d :: ds => if c = d then c :: sharedMargin cs ds else []
  | _, _ => []

/-- The margin that all lines share; a line of spaces and tabs alone does not count. -/
def commonMargin (lines : List (List Char)) : List Char :=
  match (lines.filter (·.any (!isMargin ·))).map (·.takeWhile isMargin) with
  | [] => []
  | m :: ms => ms.foldl sharedMargin m

/-- Remove the shared margin from lines, and empty those that hold spaces and tabs alone. -/
def removeMargin (lines : List (List Char)) : List (List Char) :=
  let margin := (commonMargin lines).length
  lines.map fun l => if l.all isMargin then [] else l.drop margin

/-- Trim a value and remove the margin that the lines behind its first one share. -/
def dedent (value : List Char) : List Char :=
  match (Text.trim Text.isBlank value).splitOnP (· == '\n') with
  | [] => []
  | first :: more => ['\n'].intercalate (first :: removeMargin more)

/-- The assignments of a tag block that starts with the glyph `opener`. -/
def readAssignments (opener : Glyph) (b : Block) : Except Fault (List (String × String)) :=
  let (leading, assignments) := cutAtNames b.inside
  if assignments.isEmpty then
    .error ⟨opener.pos, .noAssignment (Glyph.text (opener :: b.inside ++ [b.closer]))⟩
  else
    match leading.dropWhile Glyph.isBlank with
    | [] => .ok (assignments.map fun e => (Glyph.text e.1, String.ofList (dedent (Glyph.chars e.2))))
    | g :: _ =>
      .error ⟨g.pos, .strayText (Glyph.text (Text.trim Glyph.isBlank leading))⟩

end IntentGrammar.Template
