import IntentGrammar.Template.Assignment
import IntentGrammar.Template.Atom
import IntentGrammar.Pattern
import IntentGrammar.Table
import IntentGrammar.Text.WordChar

/-!
# Items of a template

A template is a list of items: words, groups of options, slots and tag blocks.  `Item.readAll`
reads them from left to right and faults at the first one that cannot be read.

The first glyph of an item decides what it is; a square bracket opens a tag block if a name and
an equals sign follow, and a slot otherwise.
-/

namespace IntentGrammar.Template

/-- A part of a template. -/
inductive Item where
  | atom (a : Atom)
  /-- Options, of one word-level item or more each. -/
  | group (options : List (List Atom)) (optional : Bool)
  /-- A slot; a typed one comes with the name and the pattern of its entity type. -/
  | slot (name : String) (optional : Bool) (entity : Option (String × Pattern))
  | tags (assignments : List (String × String))

namespace Item

/-- A square bracket followed by this opens a tag block. -/
def startsTags (gs : List Glyph) : Bool :=
  (nameBefore? (fun c => Text.isWordChar c || c == '-') gs).isSome

/-- A question mark right behind a construct makes it optional. -/
def takeMark : List Glyph → Bool × List Glyph
  | [] => (false, [])
  | g :: gs => if g.char = '?' then (true, gs) else (false, g :: gs)

theorem takeMark_suffix (gs : List Glyph) : (takeMark gs).2 <:+ gs := by
  cases gs with
  | nil => exact List.suffix_refl _
  | cons g gs =>
    rw [takeMark]
    split
    · exact List.suffix_cons g gs
    · exact List.suffix_refl _

/-- Refuse certain brackets inside a construct. -/
def refuse (openers : List Bracket) (opener : Glyph) (inside : List Glyph) : Except Fault Unit :=
  match inside.find? fun g => openers.any fun b => g.char == b.opener with
  | some g => .error ⟨g.pos, .insideConstruct g.char opener.char⟩
  | none => .ok ()

/-- The group inside parentheses.  An empty option makes it optional. -/
def readGroup (opener : Glyph) (b : Block) : Except Fault Item := do
  refuse [.round, .square] opener b.inside
  let options ← (b.inside.splitOnP (·.char == '|')).mapM Atom.readRun
  return .group (options.filter (!·.isEmpty))
    (options.any List.isEmpty || (takeMark b.rest).1)

/-- The slot inside square brackets. -/
def readSlot (entities : Table Pattern) (opener : Glyph) (b : Block) : Except Fault Item := do
  refuse [.round, .square, .curly] opener b.inside
  let (rawName, behind) := b.inside.span (·.char != ':')
  let name := Text.trim Glyph.isBlank rawName
  if name.isEmpty then .error ⟨opener.pos, .unnamedSlot⟩
  else
    let optional := (takeMark b.rest).1
    match behind with
    | [] => .ok (.slot (Glyph.text name) optional none)
    | _ :: rawKind =>
      let kind := Glyph.text (Text.trim Glyph.isBlank rawKind)
      match entities.get? kind with
      | some pattern => .ok (.slot (Glyph.text name) optional (some (kind, pattern)))
      | none =>
        let culprit := (rawKind.dropWhile Glyph.isBlank).headD b.closer
        .error ⟨culprit.pos, .unknownEntity kind⟩

/-- The glyph ends a word: a blank, or an opening bracket that stands for itself also in the
middle of a word. -/
def endsWord (g : Glyph) : Bool := g.isBlank || g.char == '(' || g.char == '['

/-- Read one item, given its first glyph and what follows; the second part is what is left. -/
def read (entities : Table Pattern) (g : Glyph) (gs : List Glyph) :
    Except Fault (Item × List Glyph) :=
  match Bracket.ofOpener? g.char with
  | none => (Atom.read g (gs.takeWhile (!endsWord ·))).map (.atom ·, gs.dropWhile (!endsWord ·))
  | some kind =>
    match block ⟨kind, g.pos⟩ [] gs with
    | .error f => .error f
    | .ok b =>
      if kind = .curly ∨ (kind = .square ∧ startsTags gs = true) then
        (readAssignments g b).map (.tags ·, b.rest)
      else if kind = .square then (readSlot entities g b).map (·, (takeMark b.rest).2)
      else (readGroup g b).map (·, (takeMark b.rest).2)

section

variable (entities : Table Pattern) {g : Glyph} {gs : List Glyph} {kind : Bracket} {b : Block}

theorem read_word (hopener : Bracket.ofOpener? g.char = none) :
    read entities g gs =
      (Atom.read g (gs.takeWhile (!endsWord ·))).map (.atom ·, gs.dropWhile (!endsWord ·)) := by
  simp only [read, hopener]

theorem read_unclosed {f : Fault} (hopener : Bracket.ofOpener? g.char = some kind)
    (hblock : block ⟨kind, g.pos⟩ [] gs = .error f) : read entities g gs = .error f := by
  simp only [read, hopener, hblock]

theorem read_tags (hopener : Bracket.ofOpener? g.char = some kind)
    (hblock : block ⟨kind, g.pos⟩ [] gs = .ok b)
    (h : kind = .curly ∨ kind = .square ∧ startsTags gs = true) :
    read entities g gs = (readAssignments g b).map (.tags ·, b.rest) := by
  simp only [read, hopener, hblock, if_pos h]

theorem read_slot (hopener : Bracket.ofOpener? g.char = some .square)
    (hblock : block ⟨.square, g.pos⟩ [] gs = .ok b) (h : startsTags gs = false) :
    read entities g gs = (readSlot entities g b).map (·, (takeMark b.rest).2) := by
  simp [read, hopener, hblock, h]

theorem read_group (hopener : Bracket.ofOpener? g.char = some .round)
    (hblock : block ⟨.round, g.pos⟩ [] gs = .ok b) :
    read entities g gs = (readGroup g b).map (·, (takeMark b.rest).2) := by
  simp [read, hopener, hblock]

/-- What reading an item can do, by the glyph that it starts with and by the block behind it. -/
theorem read_cases (g : Glyph) (gs : List Glyph) :
    (Bracket.ofOpener? g.char = none ∧
      read entities g gs =
        (Atom.read g (gs.takeWhile (!endsWord ·))).map (.atom ·, gs.dropWhile (!endsWord ·))) ∨
    (∃ kind f, Bracket.ofOpener? g.char = some kind ∧ block ⟨kind, g.pos⟩ [] gs = .error f ∧
      read entities g gs = .error f) ∨
    (∃ kind b, Bracket.ofOpener? g.char = some kind ∧ block ⟨kind, g.pos⟩ [] gs = .ok b ∧
      (kind = .curly ∨ kind = .square ∧ startsTags gs = true) ∧
      read entities g gs = (readAssignments g b).map (.tags ·, b.rest)) ∨
    (∃ b, Bracket.ofOpener? g.char = some .square ∧ block ⟨.square, g.pos⟩ [] gs = .ok b ∧
      startsTags gs = false ∧
      read entities g gs = (readSlot entities g b).map (·, (takeMark b.rest).2)) ∨
    ∃ b, Bracket.ofOpener? g.char = some .round ∧ block ⟨.round, g.pos⟩ [] gs = .ok b ∧
      read entities g gs = (readGroup g b).map (·, (takeMark b.rest).2) := by
  cases hopener : Bracket.ofOpener? g.char with
  | none => exact .inl ⟨rfl, read_word entities hopener⟩
  | some kind =>
    refine .inr ?_
    cases hb : block ⟨kind, g.pos⟩ [] gs with
    | error f => exact .inl ⟨kind, f, rfl, hb, read_unclosed entities hopener hb⟩
    | ok b =>
      refine .inr ?_
      by_cases htags : kind = .curly ∨ kind = .square ∧ startsTags gs = true
      · exact .inl ⟨kind, b, rfl, hb, htags, read_tags entities hopener hb htags⟩
      · refine .inr ?_
        cases kind with
        | curly => exact absurd (.inl rfl) htags
        | square =>
          have hslot : startsTags gs = false := by simpa using htags
          exact .inl ⟨b, rfl, hb, hslot, read_slot entities hopener hb hslot⟩
        | round => exact .inr ⟨b, rfl, hb, read_group entities hopener hb⟩

end

theorem snd_eq_of_map {ε α β γ : Type} {r : Except ε α} {f : α → β} {b : β} {c c' : γ}
    (h : r.map (fun a => (f a, c)) = .ok (b, c')) : c = c' := by
  cases r with
  | error e => cases h
  | ok a => cases h; rfl

/-- What is left behind an item is the end of what was there. -/
theorem suffix_of_read {entities : Table Pattern} {g : Glyph} {gs left : List Glyph} {item : Item}
    (h : read entities g gs = .ok (item, left)) : left <:+ gs := by
  have hrest {kind : Bracket} {b : Block} (hb : block ⟨kind, g.pos⟩ [] gs = .ok b) :
      b.rest <:+ gs :=
    ⟨b.inside ++ [b.closer], by rw [append_of_block hb, List.append_assoc]; rfl⟩
  have hmark {kind : Bracket} {b : Block} (hb : block ⟨kind, g.pos⟩ [] gs = .ok b) :
      (takeMark b.rest).2 <:+ gs := (takeMark_suffix b.rest).trans (hrest hb)
  obtain ⟨-, hread⟩ | ⟨kind, f, -, hb, hread⟩ | ⟨kind, b, -, hb, -, hread⟩ | ⟨b, -, hb, -, hread⟩ |
    ⟨b, -, hb, hread⟩ := read_cases entities g gs
  all_goals rw [hread] at h
  · rw [← snd_eq_of_map h]
    exact List.dropWhile_suffix _
  · cases h
  · rw [← snd_eq_of_map h]
    exact hrest hb
  · rw [← snd_eq_of_map h]
    exact hmark hb
  · rw [← snd_eq_of_map h]
    exact hmark hb

/-- The items of a template, from left to right. -/
def readAll (entities : Table Pattern) (gs : List Glyph) : Except Fault (List Item) :=
  match _hg : gs.dropWhile Glyph.isBlank with
  | [] => .ok []
  | g :: rest =>
    match _hr : read entities g rest with
    | .error f => .error f
    | .ok (item, left) => (readAll entities left).map (item :: ·)
termination_by gs.length
decreasing_by
  have h₁ := (List.dropWhile_suffix (l := gs) Glyph.isBlank).length_le
  have h₂ := (suffix_of_read _hr).length_le
  simp only [_hg, List.length_cons] at h₁
  omega

section

variable (entities : Table Pattern) {g : Glyph} {gs rest : List Glyph}

theorem readAll_blank (h : gs.dropWhile Glyph.isBlank = []) : readAll entities gs = .ok [] := by
  rw [readAll]
  split
  · rfl
  · next h' => cases h.symm.trans h'

theorem readAll_fault (h : gs.dropWhile Glyph.isBlank = g :: rest) {f : Fault}
    (hr : read entities g rest = .error f) : readAll entities gs = .error f := by
  rw [readAll]
  split
  · next h' => cases h.symm.trans h'
  · next h' =>
    cases h.symm.trans h'
    split <;> simp_all

theorem readAll_item (h : gs.dropWhile Glyph.isBlank = g :: rest) {item : Item}
    {left : List Glyph} (hr : read entities g rest = .ok (item, left)) :
    readAll entities gs = (readAll entities left).map (item :: ·) := by
  rw [readAll]
  split
  · next h' => cases h.symm.trans h'
  · next h' =>
    cases h.symm.trans h'
    split <;> simp_all

end

end Item

end IntentGrammar.Template
