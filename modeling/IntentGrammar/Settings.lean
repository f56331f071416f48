import IntentGrammar.Lexicon.Known
import IntentGrammar.Settings.Loading
import IntentGrammar.Yaml.Document

/-!
# Settings of an application

The format of files, the rules of values and the environment that an application loads its settings
with.

* `Settings.check` reads the four settings off whatever values are given, or reports every value
  that breaks a rule;
* `Settings.direct` lets directly given values win over the environment;
* `Settings.load` is `Settings.loadWith` for the format and the builder of this module: both the
  file and the environment have to be valid as a whole, also where they are not used.

The format is that of `Yaml.read`, which refuses what it does not cover.
-/

namespace IntentGrammar

namespace Given

/-- The values of a record; what is no setting does not count. -/
def ofRecord (fields : List (Value × Value)) : Given := fun s => Value.field? s.name fields

/-- The values of the environment of an application.  A variable is named for the application and
the setting, in letters of either case; of several the last counts. -/
def ofEnvironment (application : String) (vars : List (String × String)) : Given := fun s =>
  let name := application ++ "_" ++ s.name
  (vars.reverse.find? fun e => e.1.toList.map Char.toLower == name.toList.map Char.toLower).map
    fun e => .string e.2

end Given

namespace Settings

/-! ### Reading values -/

/-- A lexicon file, or none. -/
def readPath : Value → Except Rule (Option FilePath)
  | .null => .ok none
  | .string s => .ok (some (.ofText s))
  | _ => .error .pathType

/-- Blanks around a number; the information separators are none of them. -/
def isNumberBlank (c : Char) : Bool := Text.isBlank c && !(28 ≤ c.toNat && c.toNat ≤ 31)

/-- What is left of a numeral behind the zeros at its start, of which underscores are taken for
more.  `last` is the last of them so far; it stays in front of a point and at the end. -/
def behindZeros? (last : Char) : List Char → Option (List Char)
  | [] => some [last]
  | c :: cs =>
    if c = '0' ∨ c = '_' then behindZeros? c cs
    else if c = '.' then some (last :: c :: cs)
    else if c.isDigit then some (c :: cs)
    else none

/-- A numeral without the zeros at its start, which has to be a digit. -/
def dropZeros? : List Char → Option (List Char)
  | [] => none
  | c :: cs => if c = '0' then behindZeros? c cs else if c.isDigit then some (c :: cs) else none

/-- A numeral without its fraction, if that is made of zeros, one at least. -/
def dropFraction (cs : List Char) : List Char :=
  let fraction := (cs.dropWhile (· != '.')).drop 1
  if !fraction.isEmpty && fraction.all (· == '0') then cs.takeWhile (· != '.') else cs

/-- A numeral without its underscores, which have to stand between other characters. -/
def dropUnderscores? (cs : List Char) : Option (List Char) :=
  let groups := cs.splitOn '_'
  if groups.all (!·.isEmpty) then some groups.flatten else none

/-- The most bytes that are left of a numeral, with its sign. -/
def longestNumeral : Nat := 4300

/-- The whole number that a text spells: digits with a sign, in groups, which may end in a fraction
of zeros. -/
def readNumeral (cs : List Char) : Except Rule Int :=
  let (negative, body) := Yaml.takeSign cs
  match (dropZeros? body).bind fun cs => dropUnderscores? (dropFraction cs) with
  | none => .error .intParsing
  | some digits =>
    if longestNumeral < (String.ofList digits).utf8ByteSize + (if negative then 1 else 0) then
      .error .intParsingSize
    else if digits.all Char.isDigit then
      let n : Int := digits.foldl (fun n c => 10 * n + (c.toNat - 48)) 0
      .ok (if negative then -n else n)
    else .error .intParsing

/-- The whole number that a value stands for.  A float is one if it has no fraction, up to the
limits of 64 bits. -/
def readInt : Value → Except Rule Int
  | .bool b => .ok (if b then 1 else 0)
  | .int n => .ok n
  | .float x =>
    match Decimal.decode x, Decimal.whole? x with
    | .finite _ _ _, some n => if n.natAbs < Nat.pow 2 63 then .ok n else .error .intParsingSize
    | .finite _ _ _, none => .error .intFromFloat
    | _, _ => .error .finiteNumber
  | .string s => readNumeral (Text.trim isNumberBlank s.toList)
  | _ => .error .intType

/-- The rules of the settings. -/
def rules : Rules Value := ⟨Lexicon.readLanguage, readPath, readInt⟩

/-- The settings that are given, and the default for the others. -/
def check (given : Given) : Except (List Problem) Settings :=
  match rules.setting given .language, rules.setting given .resourcePath,
    rules.setting given .maxSteps, rules.setting given .maxEnumerations with
  | .ok language, .ok resourcePath, .ok maxSteps, .ok maxEnumerations =>
    .ok ⟨language, resourcePath, maxSteps, maxEnumerations⟩
  | _, _, _, _ =>
    .error (Setting.all.filterMap fun s => Problem.of? s.name (rules.setting given s))

/-- Directly given values, and those of the environment for the other settings.  A value of the
environment that is not used is not looked at. -/
def direct (given environment : Given) : Except (List Problem) Settings :=
  check (given.orElse environment)

/-! ### Files -/

/-- Why settings or a lexicon cannot be loaded. -/
inductive Fault where
  | path (f : PathFault)
  /-- A path starts at a home folder that is not known. -/
  | unknownHome
  /-- The text of a file cannot be read. -/
  | text (f : Yaml.Fault)
  /-- A file holds something other than a record. -/
  | noRecord
  | invalid (problems : List Problem)
  | lexicon (f : Lexicon.Fault)

/-- The record that a text holds; blank data counts as an empty one. -/
def readRecord (text : String) : Except Fault (List (Value × Value)) :=
  match Yaml.read text with
  | .error f => .error (.text f)
  | .ok (.map fields) => .ok fields
  | .ok v => if v.isVacant then .ok [] else .error .noRecord

/-- The lexicon in a file, for the language that the file is named for unless it says another. -/
def readLexicon (F : Folder) (p : FilePath) : Except Fault Lexicon := do
  let text ← (F.read p).mapError .path
  let fields ← readRecord text
  (Lexicon.ofRecord p.stem fields).mapError .lexicon

/-- The lexicon of the settings: from their file if they name one, which they may name by the sign
of the home folder, else the one that the application knows. -/
def lexicon (application : String) (S : Settings) (F : Folder) : Except Fault Lexicon :=
  match S.resourcePath with
  | some p =>
    match p.expandHome? with
    | some p => readLexicon F p
    | none => .error .unknownHome
  | none => (Lexicon.forLanguage application S.language).mapError .lexicon

/-- The format of configuration files. -/
def format : Format Value Fault where
  read text := (Yaml.read text).mapError .text
  isVacant := Value.isVacant
  fields?
    | .map fields => some (Value.field? · fields)
    | _ => none
  noRecord := .noRecord

/-- The builder of settings, for environments whose values are found by `source`.  Values that are
given hide those of the environment. -/
def builder {η : Type} (source : η → Given) : Builder Value η Fault where
  toRules := rules
  ofText := .string
  values given environment := given.orElse (source environment)
  build given :=
    match check given with
    | .ok S => .ok ⟨S, fun s => (given s).isSome⟩
    | .error problems => .error (.invalid problems)

/-- Load the settings of an application from its configuration file, if there is one, with the
environment on top. -/
def load (application : String) (F : Folder) (environment : Given) : Except Fault Settings :=
  loadWith format (builder id) application F environment

end Settings

end IntentGrammar
