import IntentGrammar.Template.Compile
import Mathlib.Data.List.TakeDrop

/-!
# Places in a template

A reader of templates looks at characters; the places of the glyphs are only handed on, and show
nowhere but in faults.  `Glyph.move` puts glyphs elsewhere, and every reader commutes with it: what
it reads stays the same, and a fault moves along with the glyphs.  A move need not keep places
apart, so what can be read depends on the characters alone.

* `Item.readAll_move` : reading moved glyphs.
* `Glyph.number_add` : numbering from a later place moves the glyphs.
-/

namespace IntentGrammar.Template

section

variable {ε ε' α β : Type} (h : ε → ε')

theorem mapError_map (r : Except ε α) (f : α → β) :
    (r.map f).mapError h = (r.mapError h).map f := by
  cases r <;> rfl

theorem mapError_bind (r : Except ε α) (f : α → Except ε β) :
    (r >>= f).mapError h = r.mapError h >>= fun a => (f a).mapError h := by
  cases r <;> rfl

theorem mapM_mapError (f : α → Except ε β) (xs : List α) :
    xs.mapM (fun x => (f x).mapError h) = (xs.mapM f).mapError h := by
  induction xs with
  | nil => rfl
  | cons x xs ih =>
    rw [List.mapM_cons, List.mapM_cons, mapError_bind, ih]
    congr 1
    funext y
    rw [mapError_bind]
    rfl

theorem splitOnP_map (f : α → β) (p : β → Bool) (xs : List α) :
    (xs.map f).splitOnP p = (xs.splitOnP (p ∘ f)).map (List.map f) := by
  induction xs with
  | nil => rfl
  | cons x xs ih =>
    rw [List.map_cons, List.splitOnP_cons_eq_if_modifyHead, List.splitOnP_cons_eq_if_modifyHead, ih]
    by_cases hx : p (f x) = true
    · simp [hx]
    · simp only [Function.comp, hx]
      cases xs.splitOnP (p ∘ f) <;> rfl

end

/-! ### Moves -/

variable (φ : Nat → Nat)

/-- The glyph in another place. -/
def Glyph.move (g : Glyph) : Glyph := ⟨g.char, φ g.pos⟩

/-- The fault in another place. -/
def Fault.move (f : Fault) : Fault := ⟨φ f.position, f.cause⟩

/-- The open bracket in another place. -/
def Opening.move (o : Opening) : Opening := ⟨o.bracket, φ o.pos⟩

/-- The block in another place. -/
def Block.move (b : Block) : Block :=
  ⟨b.inside.map (Glyph.move φ), b.closer.move φ, b.rest.map (Glyph.move φ)⟩

namespace Glyph

@[simp] theorem char_move (g : Glyph) : (g.move φ).char = g.char := rfl

@[simp] theorem chars_move (gs : List Glyph) : chars (gs.map (move φ)) = chars gs := by
  rw [chars, List.map_map]
  rfl

@[simp] theorem text_move (gs : List Glyph) : text (gs.map (move φ)) = text gs := by
  rw [text, text, chars_move]

/-- A class of characters cuts moved glyphs where it cuts the glyphs. -/
theorem takeWhile_move (p : Char → Bool) (gs : List Glyph) :
    (gs.map (move φ)).takeWhile (fun g => p g.char) =
      (gs.takeWhile fun g => p g.char).map (move φ) :=
  List.takeWhile_map

theorem dropWhile_move (p : Char → Bool) (gs : List Glyph) :
    (gs.map (move φ)).dropWhile (fun g => p g.char) =
      (gs.dropWhile fun g => p g.char).map (move φ) :=
  List.dropWhile_map

theorem splitOnP_move (p : Char → Bool) (gs : List Glyph) :
    (gs.map (move φ)).splitOnP (fun g => p g.char) =
      (gs.splitOnP fun g => p g.char).map (List.map (move φ)) :=
  splitOnP_map _ _ gs

theorem dropBlanks_move (gs : List Glyph) :
    (gs.map (move φ)).dropWhile isBlank = (gs.dropWhile isBlank).map (move φ) :=
  dropWhile_move φ Text.isBlank gs

theorem trim_move (gs : List Glyph) :
    Text.trim isBlank (gs.map (move φ)) = (Text.trim isBlank gs).map (move φ) := by
  rw [Text.trim, dropBlanks_move, ← List.map_reverse, dropBlanks_move, ← List.map_reverse]
  rfl

theorem number_add (start k : Nat) (cs : List Char) :
    number (start + k) cs = (number start cs).map (move (· + k)) := by
  induction cs generalizing start with
  | nil => rfl
  | cons c cs ih =>
    rw [number, Nat.add_right_comm, ih, number]
    rfl

end Glyph

/-! ### Words -/

theorem strands_move (opened : Option (Nat × List Char)) (gs : List Glyph) :
    strands (opened.map fun o => (φ o.1, o.2)) (gs.map (Glyph.move φ)) =
      (strands opened gs).mapError (Fault.move φ) := by
  fun_induction strands opened gs with
  | case1 => rfl
  | case2 pos cs => rfl
  | case3 g gs hcloser hopener ih =>
    rw [mapError_map, ← ih]
    exact strands_plain _ (g := g.move φ) hopener hcloser
  | case4 g gs pos cs hcloser hopener ih =>
    rw [← ih]
    exact strands_braced _ (g := g.move φ) hopener hcloser (φ pos) cs
  | case5 g gs hopener ih =>
    rw [← ih]
    exact strands_open _ (g := g.move φ) hopener
  | case6 g gs pos cs hcloser hopener ih =>
    rw [mapError_map, ← ih]
    exact strands_close _ (g := g.move φ) hopener hcloser (φ pos) cs
  | case7 opened g gs b hopener h =>
    exact strands_opener _ (g := g.move φ) hopener fun hnone =>
      h (Option.map_eq_none_iff.1 hnone)
  | case8 opened g gs b hcloser hopener h =>
    refine strands_closer _ (g := g.move φ) hopener hcloser fun hsome => ?_
    rw [Option.isSome_map] at hsome
    obtain ⟨⟨pos, cs⟩, hopened⟩ := Option.isSome_iff_exists.1 hsome
    exact h pos cs hopened

namespace Atom

theorem read_move (g : Glyph) (gs : List Glyph) :
    read (g.move φ) (gs.map (Glyph.move φ)) = (read g gs).mapError (Fault.move φ) := by
  have hlast : (g.move φ :: gs.map (Glyph.move φ)).getLast?.map (·.char) =
      (g :: gs).getLast?.map (·.char) := by
    rw [← List.map_cons, List.getLast?_map, Option.map_map]
    rfl
  have hstem : ∀ optional : Bool,
      (if optional then (g.move φ :: gs.map (Glyph.move φ)).dropLast
        else g.move φ :: gs.map (Glyph.move φ)) =
      (if optional then (g :: gs).dropLast else g :: gs).map (Glyph.move φ) := by
    intro optional
    rw [← List.map_cons, ← List.map_dropLast]
    cases optional <;> rfl
  simp only [read, hlast, hstem, Glyph.chars_move]
  split
  · rfl
  · rfl
  · rw [mapError_map, ← strands_move]
    rfl

theorem readAll_move (words : List (List Glyph)) :
    readAll (words.map (List.map (Glyph.move φ))) = (readAll words).mapError (Fault.move φ) := by
  induction words with
  | nil => rfl
  | cons word words ih =>
    cases word with
    | nil => exact ih
    | cons g gs =>
      simp only [List.map_cons, readAll, read_move, ih]
      cases read g gs with
      | error f => rfl
      | ok a => exact (mapError_map _ _ _).symm

theorem readRun_move (gs : List Glyph) :
    readRun (gs.map (Glyph.move φ)) = (readRun gs).mapError (Fault.move φ) := by
  rw [readRun, show Glyph.isBlank = (fun g => Text.isBlank g.char) from rfl, Glyph.splitOnP_move,
    readAll_move]
  rfl

end Atom

/-! ### Blocks -/

namespace Opening

theorem step_move (opened : List Opening) (g : Glyph) :
    step (opened.map (move φ)) (g.move φ) =
      ((step opened g).map (List.map (move φ))).mapError (Fault.move φ) := by
  cases hopener : Bracket.ofOpener? g.char with
  | some b =>
    rw [step_opener _ hopener, step_opener _ (g := g.move φ) hopener]
    rfl
  | none =>
    cases hcloser : Bracket.ofCloser? g.char with
    | none =>
      rw [step_plain _ hopener hcloser, step_plain _ (g := g.move φ) hopener hcloser]
      rfl
    | some b =>
      cases opened with
      | nil =>
        rw [step_unmatched hopener hcloser]
        exact step_unmatched (g := g.move φ) hopener hcloser
      | cons o outer =>
        rw [step_closer hopener hcloser, List.map_cons,
          step_closer (g := g.move φ) hopener hcloser]
        by_cases hb : b = o.bracket
        · rw [if_pos hb, if_pos (by exact hb)]
          rfl
        · rw [if_neg hb, if_neg (by exact hb)]
          rfl

end Opening

theorem block_move (o : Opening) (outer : List Opening) (gs : List Glyph) :
    block (o.move φ) (outer.map (Opening.move φ)) (gs.map (Glyph.move φ)) =
      ((block o outer gs).map (Block.move φ)).mapError (Fault.move φ) := by
  fun_induction block o outer gs with
  | case1 o outer => rfl
  | case2 o outer g gs f hstep =>
    rw [List.map_cons, block, ← List.map_cons, Opening.step_move, hstep]
    rfl
  | case3 o outer g gs hstep =>
    rw [List.map_cons, block, ← List.map_cons, Opening.step_move, hstep]
    rfl
  | case4 o outer g gs o' outer' hstep f hblock ih =>
    rw [List.map_cons, block, ← List.map_cons, Opening.step_move, hstep]
    simp only [Except.map, Except.mapError, List.map_cons, ih, hblock]
  | case5 o outer g gs o' outer' hstep b hblock ih =>
    rw [List.map_cons, block, ← List.map_cons, Opening.step_move, hstep]
    simp only [Except.map, Except.mapError, List.map_cons, ih, hblock]
    rfl

/-! ### Sources -/

/-- The scan with its open brackets in other places. -/
def Scan.move : Scan → Scan
  | .fresh => .fresh
  | .comment => .comment
  | .within opened => .within (opened.map (Opening.move φ))

namespace Scan

theorem opened_move (s : Scan) : (s.move φ).opened = s.opened.map (Opening.move φ) := by
  cases s <;> rfl

theorem isComment_move (s : Scan) (gs : List Glyph) :
    (s.move φ).isComment (gs.map (Glyph.move φ)) = s.isComment gs := by
  cases s with
  | fresh =>
    show ((((gs.map (Glyph.move φ)).dropWhile fun g => g.char == ' ' || g.char == '\t').head?.map
      (·.char)) == some '#') = _
    rw [Glyph.dropWhile_move φ (fun c => c == ' ' || c == '\t'), List.head?_map, Option.map_map]
    rfl
  | comment => rfl
  | within opened => rfl

end Scan

theorem cut_move (s : Scan) (gs : List Glyph) :
    cut (s.move φ) (gs.map (Glyph.move φ)) = (cut s gs).mapError (Fault.move φ) := by
  induction gs generalizing s with
  | nil =>
    rw [List.map_nil, cut, cut, Scan.opened_move]
    cases s.opened <;> rfl
  | cons g gs ih =>
    rw [List.map_cons, cut, cut, Scan.opened_move, Glyph.char_move, ← List.map_cons,
      Scan.isComment_move, Opening.step_move]
    simp only [List.map_eq_nil_iff]
    split
    · rw [mapError_map, ← ih .fresh]
      rfl
    · split
      · exact ih .comment
      · cases Opening.step s.opened g with
        | error f => rfl
        | ok opened =>
          show (cut (Scan.move φ (.within opened)) (gs.map (Glyph.move φ))).map _ = _
          rw [ih, ← mapError_map]

/-! ### Tag blocks -/

theorem nameBefore?_move (p : Char → Bool) (gs : List Glyph) :
    nameBefore? p (gs.map (Glyph.move φ)) =
      (nameBefore? p gs).map (Prod.map (List.map (Glyph.move φ)) (List.map (Glyph.move φ))) := by
  simp only [nameBefore?, Glyph.dropBlanks_move, Glyph.takeWhile_move, Glyph.dropWhile_move]
  generalize (gs.dropWhile Glyph.isBlank).takeWhile (fun g => p g.char) = name
  generalize ((gs.dropWhile Glyph.isBlank).dropWhile fun g => p g.char).dropWhile Glyph.isBlank =
    behind
  cases name with
  | nil => rfl
  | cons g name =>
    cases behind with
    | nil => rfl
    | cons sign value =>
      simp only [List.map_cons, Glyph.char_move]
      split <;> rfl

theorem cutAtNames_move (gs : List Glyph) :
    cutAtNames (gs.map (Glyph.move φ)) =
      ((cutAtNames gs).1.map (Glyph.move φ), (cutAtNames gs).2.map
        (Prod.map (List.map (Glyph.move φ)) (List.map (Glyph.move φ)))) := by
  fun_induction cutAtNames gs with
  | case1 gs name rest h value more heq ih =>
    rw [cutAtNames_name (by rw [nameBefore?_move, h]; rfl), ih, heq]
    rfl
  | case2 => exact cutAtNames_nil
  | case3 g gs h value more heq ih =>
    rw [List.map_cons, cutAtNames_cons (by rw [← List.map_cons, nameBefore?_move, h]; rfl), ih, heq]
    rfl

theorem readAssignments_move (opener : Glyph) (b : Block) :
    readAssignments (opener.move φ) (b.move φ) =
      (readAssignments opener b).mapError (Fault.move φ) := by
  have htext : Glyph.text (opener.move φ :: (b.inside.map (Glyph.move φ)) ++ [b.closer.move φ]) =
      Glyph.text (opener :: b.inside ++ [b.closer]) := by
    rw [← Glyph.text_move φ (opener :: b.inside ++ [b.closer]), List.map_append]
    rfl
  simp only [readAssignments, Block.move, cutAtNames_move, htext]
  obtain ⟨leading, assignments⟩ := cutAtNames b.inside
  cases assignments with
  | nil => rfl
  | cons e es =>
    simp only [Glyph.dropBlanks_move, Glyph.trim_move, Glyph.text_move]
    cases leading.dropWhile Glyph.isBlank with
    | nil => simp [Except.mapError]
    | cons g gs => rfl

/-! ### Items -/

namespace Item

theorem startsTags_move (gs : List Glyph) : startsTags (gs.map (Glyph.move φ)) = startsTags gs := by
  rw [startsTags, nameBefore?_move, Option.isSome_map]
  rfl

theorem takeMark_move (gs : List Glyph) :
    takeMark (gs.map (Glyph.move φ)) =
      ((takeMark gs).1, (takeMark gs).2.map (Glyph.move φ)) := by
  cases gs with
  | nil => rfl
  | cons g gs =>
    by_cases hg : g.char = '?' <;> simp [takeMark, hg]

theorem refuse_move (openers : List Bracket) (opener : Glyph) (inside : List Glyph) :
    refuse openers (opener.move φ) (inside.map (Glyph.move φ)) =
      (refuse openers opener inside).mapError (Fault.move φ) := by
  simp only [refuse, List.find?_map, Function.comp_def, Glyph.char_move]
  cases inside.find? _ <;> rfl

theorem readGroup_move (opener : Glyph) (b : Block) :
    readGroup (opener.move φ) (b.move φ) = (readGroup opener b).mapError (Fault.move φ) := by
  have hoptions : ((b.move φ).inside.splitOnP (·.char == '|')).mapM Atom.readRun =
      ((b.inside.splitOnP (·.char == '|')).mapM Atom.readRun).mapError (Fault.move φ) := by
    rw [Block.move, Glyph.splitOnP_move φ (· == '|'), List.mapM_map, ← mapM_mapError]
    congr 1
    funext gs
    exact Atom.readRun_move φ gs
  rw [readGroup, readGroup, mapError_bind, hoptions, Block.move, refuse_move, takeMark_move]
  congr 1
  funext u
  rw [mapError_bind]
  rfl

theorem readSlot_move (entities : Table Pattern) (opener : Glyph) (b : Block) :
    readSlot entities (opener.move φ) (b.move φ) =
      (readSlot entities opener b).mapError (Fault.move φ) := by
  rw [readSlot, readSlot, mapError_bind, Block.move, refuse_move, takeMark_move]
  congr 1
  funext u
  simp only [List.span_eq_takeWhile_dropWhile, Glyph.takeWhile_move φ (· != ':'),
    Glyph.dropWhile_move φ (· != ':'), Glyph.trim_move, List.isEmpty_map, Glyph.text_move]
  split
  · rfl
  · cases b.inside.dropWhile (·.char != ':') with
    | nil => rfl
    | cons colon rawKind =>
      simp only [List.map_cons, Glyph.trim_move, Glyph.text_move, Glyph.dropBlanks_move]
      cases entities.get? (Glyph.text (Text.trim Glyph.isBlank rawKind)) with
      | some pattern => rfl
      | none => cases rawKind.dropWhile Glyph.isBlank <;> rfl

theorem read_move (entities : Table Pattern) (g : Glyph) (gs : List Glyph) :
    read entities (g.move φ) (gs.map (Glyph.move φ)) =
      ((read entities g gs).map (Prod.map id (List.map (Glyph.move φ)))).mapError
        (Fault.move φ) := by
  have hblock (kind : Bracket) : block ⟨kind, (g.move φ).pos⟩ [] (gs.map (Glyph.move φ)) =
      ((block ⟨kind, g.pos⟩ [] gs).map (Block.move φ)).mapError (Fault.move φ) :=
    block_move φ ⟨kind, g.pos⟩ [] gs
  obtain ⟨hopener, hread⟩ | ⟨kind, f, hopener, hb, hread⟩ | ⟨kind, b, hopener, hb, htags, hread⟩ |
    ⟨b, hopener, hb, hstart, hread⟩ | ⟨b, hopener, hb, hread⟩ := read_cases entities g gs
  · rw [hread, read_word _ (g := g.move φ) hopener,
      show (!endsWord ·) = fun g => !(Text.isBlank g.char || g.char == '(' || g.char == '[') from rfl,
      Glyph.takeWhile_move φ (fun c => !(Text.isBlank c || c == '(' || c == '[')),
      Glyph.dropWhile_move φ (fun c => !(Text.isBlank c || c == '(' || c == '[')), Atom.read_move]
    cases Atom.read g _ <;> rfl
  · specialize hblock kind
    rw [hb] at hblock
    rw [hread, read_unclosed _ (g := g.move φ) hopener hblock]
    rfl
  · specialize hblock kind
    rw [hb] at hblock
    rw [hread, read_tags _ (g := g.move φ) hopener hblock (by rwa [startsTags_move]),
      readAssignments_move]
    cases readAssignments g b <;> rfl
  · specialize hblock .square
    rw [hb] at hblock
    rw [hread, read_slot _ (g := g.move φ) hopener hblock (by rwa [startsTags_move]),
      readSlot_move, Block.move, takeMark_move]
    cases readSlot entities g b <;> rfl
  · specialize hblock .round
    rw [hb] at hblock
    rw [hread, read_group _ (g := g.move φ) hopener hblock, readGroup_move, Block.move,
      takeMark_move]
    cases readGroup g b <;> rfl

theorem readAll_move (entities : Table Pattern) (gs : List Glyph) :
    readAll entities (gs.map (Glyph.move φ)) = (readAll entities gs).mapError (Fault.move φ) := by
  fun_induction readAll entities gs with
  | case1 gs h => exact readAll_blank _ (by rw [Glyph.dropBlanks_move, h]; rfl)
  | case2 gs g rest h f hr =>
    exact readAll_fault _ (by rw [Glyph.dropBlanks_move, h]; rfl) (by rw [read_move, hr]; rfl)
  | case3 gs g rest h item left hr ih =>
    rw [readAll_item _ (by rw [Glyph.dropBlanks_move, h]; rfl) (by rw [read_move, hr]; rfl), ih,
      mapError_map]
    rfl

end Item

end IntentGrammar.Template
