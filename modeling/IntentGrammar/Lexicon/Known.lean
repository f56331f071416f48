import IntentGrammar.Folder
import IntentGrammar.Lexicon.Declared

/-!
# Known lexicons

The lexicons that come with an application are kept in a folder of it, one file a language, named
for the language.  So a language may be named by any path that leads to its file from there.
-/

namespace IntentGrammar.Lexicon

/-- The folder of the known lexicons. -/
def shelf : Listing Lexicon := [(english.language ++ ".yaml", .file english)]

/-- The folder of an application. -/
def applicationFolder : Listing Lexicon :=
  [("data", .folder shelf), ("core", .folder [("phrases", .folder [])])]

/-- The lexicon that is known for a language. -/
def forLanguage (application language : String) : Except Fault Lexicon :=
  let around := [shelf, applicationFolder, [(application, .folder applicationFolder)]]
  match (FilePath.ofText (language ++ ".yaml")).find [] around with
  | .ok L => .ok L
  | .error .longName => .error .longName
  | .error _ => .error (.unknownLanguage language)

end IntentGrammar.Lexicon
