import IntentGrammar.Folder
import IntentGrammar.Problem
import IntentGrammar.Value

/-!
# Loading settings

Which lexicon to use, how many steps a search may take, and how many examples to produce.  Each
setting may be given in three places: directly, in a configuration file, and in the environment.

Loading leaves to others how data is read off a file (a `Format`), how values are read by the rules
of the settings (`Rules`), and how settings are built from values in an environment (a `Builder`).
It is written for any of them, and for data of any type.

* `Builder.layered` lets the environment win over values that are given: it builds the settings
  twice, and puts what the environment gives on top;
* `Settings.loadWith` does so with the values of a configuration file, if there is one.
-/

namespace IntentGrammar

/-! ### Settings -/

/-- The settings by name. -/
inductive Setting where
  | language
  | resourcePath
  | maxSteps
  | maxEnumerations
deriving DecidableEq, Repr

namespace Setting

/-- The name of a setting. -/
def name : Setting → String
  | .language => "language"
  | .resourcePath => "resource_path"
  | .maxSteps => "max_steps"
  | .maxEnumerations => "max_enumerations"

/-- The settings, in the order in which their problems are reported. -/
def all : List Setting := [.language, .resourcePath, .maxSteps, .maxEnumerations]

/-- What a setting is set to. -/
def Content : Setting → Type
  | .language => String
  | .resourcePath => Option FilePath
  | .maxSteps => Nat
  | .maxEnumerations => Nat

end Setting

/-- Values given for some of the settings. -/
abbrev Given (α : Type := Value) := Setting → Option α

namespace Given

variable {α : Type}

/-- Nothing is given. -/
def nothing : Given α := fun _ => none

/-- The values of `a`, and those of `b` for the settings that `a` leaves open. -/
def orElse (a b : Given α) : Given α := fun s => a s <|> b s

end Given

/-- Language, lexicon file and limits. -/
structure Settings where
  language : String
  /-- A file to read the lexicon from, in place of the one known for the language. -/
  resourcePath : Option FilePath
  maxSteps : Nat
  maxEnumerations : Nat
deriving DecidableEq, Repr

namespace Settings

/-- The settings where nothing is given. -/
def default : Settings := ⟨"english", none, 1000000, 1000⟩

/-- What a setting is set to among the settings. -/
def get (S : Settings) : (s : Setting) → s.Content
  | .language => S.language
  | .resourcePath => S.resourcePath
  | .maxSteps => S.maxSteps
  | .maxEnumerations => S.maxEnumerations

end Settings

/-! ### Values -/

/-- The rules by which values of a type `α` are read. -/
structure Rules (α : Type) where
  /-- The text that a value stands for. -/
  text : α → Except Rule String
  /-- The path that a value stands for, or none. -/
  path : α → Except Rule (Option FilePath)
  /-- The whole number that a value stands for. -/
  int : α → Except Rule Int

namespace Rules

variable {α : Type} (R : Rules α)

/-- A number greater than zero. -/
def count (v : α) : Except Rule Nat :=
  match R.int v with
  | .ok n => if 0 < n then .ok n.toNat else .error .greaterThan
  | .error rule => .error rule

/-- The rule of a setting. -/
def read : (s : Setting) → α → Except Rule s.Content
  | .language => R.text
  | .resourcePath => R.path
  | .maxSteps => R.count
  | .maxEnumerations => R.count

/-- A setting as its value is read, or its default where none is given. -/
def setting (given : Given α) (s : Setting) : Except Rule s.Content :=
  match given s with
  | some v => R.read s v
  | none => .ok (Settings.default.get s)

end Rules

/-! ### Building settings -/

/-- Settings as they were built, and which of them were given a value. -/
structure Built where
  settings : Settings
  given : Setting → Bool

/-- Replace the settings that were given a value in another place by those of that place. -/
def Settings.override (S : Settings) (other : Built) : Settings where
  language := if other.given .language then other.settings.language else S.language
  resourcePath :=
    if other.given .resourcePath then other.settings.resourcePath else S.resourcePath
  maxSteps := if other.given .maxSteps then other.settings.maxSteps else S.maxSteps
  maxEnumerations :=
    if other.given .maxEnumerations then other.settings.maxEnumerations else S.maxEnumerations

/-- How settings are built from values of a type `α` in an environment of a type `η`; it may fail
for reasons `ε`. -/
structure Builder (α η ε : Type) extends Rules α where
  /-- The value that a text of the environment is. -/
  ofText : String → α
  /-- The values that settings are built with: given ones, and those of the environment. -/
  values : Given α → η → Given α
  /-- Settings with these values. -/
  build : Given α → Except ε Built

/-- Settings in which the environment wins over the values that are given.  Among the values that
settings are built with it does not, so they are built with those of the environment alone as
well. -/
def Builder.layered {α η ε : Type} (B : Builder α η ε) (given : Given α) (environment : η) :
    Except ε Settings := do
  let first ← B.build (B.values given environment)
  let other ← B.build (B.values .nothing environment)
  return first.settings.override other

/-! ### Files -/

/-- How data of a type `α` is read off a text; it may fail for reasons `ε`. -/
structure Format (α ε : Type) where
  /-- The data that a text holds. -/
  read : String → Except ε α
  /-- The data counts as empty or absent. -/
  isVacant : α → Bool
  /-- The values that the data has by name, if it is a record. -/
  fields? : α → Option (String → Option α)
  /-- The complaint about data that is no record. -/
  noRecord : ε

/-- The values that a text has by name; blank data has none. -/
def Format.fields {α ε : Type} (D : Format α ε) (text : String) :
    Except ε (String → Option α) :=
  match D.read text with
  | .error e => .error e
  | .ok data =>
    if D.isVacant data then .ok fun _ => none
    else
      match D.fields? data with
      | some fields => .ok fields
      | none => .error D.noRecord

/-- The values by name in the configuration file of an application, if there is one. -/
def Format.configuration {α ε : Type} (D : Format α ε) (application : String) (F : Folder) :
    Except ε (String → Option α) :=
  match F.files.get? (application ++ ".yaml") with
  | none => .ok fun _ => none
  | some text => D.fields text

/-- Load the settings of an application from its configuration file with the environment on top.
What the file has under other names than those of the settings does not count. -/
def Settings.loadWith {α η ε : Type} (D : Format α ε) (B : Builder α η ε) (application : String)
    (F : Folder) (environment : η) : Except ε Settings := do
  let fields ← D.configuration application F
  B.layered (fun s => fields s.name) environment

end IntentGrammar
