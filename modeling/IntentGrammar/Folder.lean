import IntentGrammar.Table

/-!
# Folders and paths

A `FilePath` is a path as it is written; steps that stay in place and doubled separators are left
out of it.  `Listing.follow` walks along one: a step upwards leaves the folder that one is in, any
other step is the name of something in it.

A `Folder` holds texts by name and is at the same time the home folder.  What lies around it is
not known; only the root of all folders is, in outline.
-/

namespace IntentGrammar

/-- A path: the root that it starts at, if it starts at one, and its steps. -/
structure FilePath where
  root : String
  steps : List String
deriving DecidableEq, Repr

namespace FilePath

/-- The root that a text starts with: two separators are one of their own, other numbers of them
are one. -/
def rootOf (text : List Char) : String :=
  match (text.takeWhile (· == '/')).length with
  | 0 => ""
  | 2 => "//"
  | _ => "/"

/-- The path that a text names. -/
def ofText (text : String) : FilePath where
  root := rootOf text.toList
  steps := ((text.toList.splitOn '/').filter fun s => s != [] && s != ['.']).map String.ofList

/-- The text of a path; the path that stays in place is a single dot. -/
def text (p : FilePath) : String :=
  if p.root = "" ∧ p.steps = [] then "." else p.root ++ "/".intercalate p.steps

/-- The path with the sign of the home folder at its start left out.  Of the home folders of
others, which are named behind the sign, only that of the root user is known. -/
def expandHome? (p : FilePath) : Option FilePath :=
  match p.root, p.steps with
  | "", step :: steps =>
    if step = "~" then some { p with steps := steps }
    else if step = "~root" then some ⟨"/", "root" :: steps⟩
    else if step.startsWith "~" then none
    else some p
  | _, _ => some p

/-- The name of the file, up to its last dot.  A dot at either end of the name does not count. -/
def stem (p : FilePath) : String :=
  let name := (p.steps.getLast?.getD "").toList
  let behind := name.reverse.takeWhile (· != '.')
  let before := name.take (name.length - behind.length - 1)
  if behind.isEmpty || before.isEmpty then String.ofList name else String.ofList before

end FilePath

/-! ### Walking along a path -/

/-- What a name in a folder stands for. -/
inductive Entry (α : Type) where
  | file (content : α)
  | folder (entries : List (String × Entry α))

/-- The entries of a folder. -/
abbrev Listing (α : Type) := Table (Entry α)

/-- Why a path leads to no file. -/
inductive PathFault where
  | missing
  /-- The path leads to a folder. -/
  | isFolder
  /-- The path goes on behind a file. -/
  | isNoFolder
  /-- A name has more bytes than a name can have. -/
  | longName
  /-- A name contains the character zero. -/
  | zeroInName
deriving DecidableEq, Repr

/-- The most bytes that a name can have. -/
def longestName : Nat := 255

/-- Follow the steps of a path.  `around` holds the folder that one is in and those around it,
innermost first.  The outermost one is the root of all folders if `rooted`, and then a step upwards
stays in it; else what lies outside of it is not known. -/
def Listing.follow {α : Type} (rooted : Bool) (around : List (Listing α)) :
    List String → Except PathFault α
  | [] => .error .isFolder
  | step :: steps =>
    match around with
    | [] => if (step :: steps).all (· == "..") then .error .isFolder else .error .missing
    | here :: outer =>
      if step = ".." then
        Listing.follow rooted (if rooted && outer.isEmpty then [here] else outer) steps
      else if longestName < step.utf8ByteSize then .error .longName
      else
        match here.get? step, steps with
        | none, _ => .error .missing
        | some (.file content), [] => .ok content
        | some (.file _), _ :: _ => .error .isNoFolder
        | some (.folder entries), steps => Listing.follow rooted (entries :: here :: outer) steps

/-- The file that a path leads to. -/
def FilePath.find {α : Type} (p : FilePath) (root : Listing α) (around : List (Listing α)) :
    Except PathFault α :=
  if p.steps.any fun s => s.toList.contains '\x00' then .error .zeroInName
  else if p.root = "" then Listing.follow false around p.steps
  else Listing.follow true [root] p.steps

/-- Files by name. -/
structure Folder where
  files : Table String

/-- The root of all folders, as far as it is the same everywhere. -/
def Folder.root : Listing String :=
  ["bin", "etc", "home", "lib", "media", "mnt", "opt", "proc", "root", "run", "sbin", "srv", "sys",
    "tmp", "usr", "var"].map (·, .folder []) ++ [("dev", .folder [("null", .file "")])]

/-- The text of the file that a path leads to. -/
def Folder.read (F : Folder) (p : FilePath) : Except PathFault String :=
  p.find Folder.root [F.files.map fun (name, text) => (name, .file text)]

end IntentGrammar
