import IntentGrammar.Grammar

/-!
# Examples of a grammar

Every pattern yields example texts: a literal word itself, a stand-in for a wildcard, the examples
of all options for a choice, and for a series the combinations of the examples of its parts.  An
optional pattern also yields the empty text.  No pattern yields more examples than a cap, and none
twice.

The combinations of a series start with the first example of every part; then each part is varied
alone, and all other combinations follow.  A low cap thus still shows every option and every part
left out.
-/

namespace IntentGrammar

namespace Pattern

/-- The text that stands for a wildcard. -/
def standIn : String := "anything"

/-- Keep each text once, and no more than `cap` of them. -/
def capped (cap : Nat) (texts : List String) : List String := texts.eraseDups.take cap

/-- The pieces joined by spaces, empty ones left out. -/
def joinPieces (pieces : List String) : String :=
  " ".intercalate (pieces.filter (· != ""))

/-- The first combination with one part varied: for each part, its further texts in turn. -/
def singleVariations : List (List String) → List (List String)
  | [] => []
  | [] :: _ => []
  | (first :: others) :: parts =>
    let defaults := parts.map (·.headD "")
    others.map (· :: defaults) ++ (singleVariations parts).map (first :: ·)

/-- Add a text unless it is there, or there are `cap` already. -/
def addCapped (cap : Nat) (texts : List String) (text : String) : List String :=
  if cap ≤ texts.length || texts.contains text then texts else texts ++ [text]

/-- Add the texts of all combinations of the parts behind the pieces chosen so far; the last part
varies fastest. -/
def addProduct (cap : Nat) (chosen : List String) : List (List String) → List String → List String
  | [], found => addCapped cap found (joinPieces chosen)
  | part :: parts, found =>
    part.foldl
      (fun found piece =>
        if cap ≤ found.length then found else addProduct cap (chosen ++ [piece]) parts found)
      found

/-- The texts of a series, given the texts of its parts. -/
def seriesTexts (cap : Nat) (parts : List (List String)) : List String :=
  if parts.any List.isEmpty then []
  else
    let spread := parts.map (·.headD "") :: singleVariations parts
    addProduct cap [] parts ((spread.map joinPieces).foldl (addCapped cap) [])

mutual

/-- The examples of a pattern.  `fill` may give the text of a slot. -/
def examples (fill : String → Option String) (cap : Nat) :
    Pattern → Except NotPattern (List String)
  | .word _ literal optional => .ok (capped cap (literal :: if optional then [""] else []))
  | .wildcard _ optional => .ok (capped cap (standIn :: if optional then [""] else []))
  | .choice _ options optional =>
    (examplesOfAll fill cap options).map fun texts =>
      capped cap (texts.flatten ++ if optional then [""] else [])
  | .series _ parts =>
    (examplesOfAll fill cap parts).map fun texts => capped cap (seriesTexts cap texts)
  | .slot _ name inner _ =>
    let texts : Except NotPattern (List String) :=
      match fill name, inner with
      | some text, _ => .ok [text]
      | none, .wildcard _ _ => .ok [standIn]
      | none, inner => (inner.examples fill cap).map (·.filter (· != ""))
    texts.map fun texts => capped cap (texts ++ if inner.isOptional then [""] else [])
  | .foreign v => .error ⟨v⟩

/-- The examples of several patterns. -/
def examplesOfAll (fill : String → Option String) (cap : Nat) :
    List Pattern → Except NotPattern (List (List String))
  | [] => .ok []
  | p :: ps => do
    let texts ← p.examples fill cap
    return texts :: (← examplesOfAll fill cap ps)

end

end Pattern

namespace Grammar

variable (G : Grammar)

/-- The examples of all phrases, each text once. -/
def examples (fill : String → Option String) : Except NotPattern (List String) :=
  (G.phrases.mapM fun (P : Phrase) => P.body.examples fill G.settings.maxEnumerations).map
    (·.flatten.eraseDups)

/-- The examples together with what recognises each of them best. -/
def roundTrip (fill : String → Option String) :
    Except AttemptFault (List (String × Option Recognition)) := do
  let texts ← (G.examples fill).mapError AttemptFault.foreign
  texts.mapM fun text => (G.best text).map (text, ·)

end Grammar

end IntentGrammar
