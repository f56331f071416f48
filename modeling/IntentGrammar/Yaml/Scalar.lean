import IntentGrammar.Value
import IntentGrammar.Yaml.Source

/-!
# Plain scalars and their values

What a plain scalar stands for: nothing, a truth value, a whole number, a float, a moment, a mark,
or else its text.  Numbers may be grouped by underscores; whole numbers may be written to the bases
2, 8 and 16.

Whether a scalar is a number or a moment is told by how it is written.  Whether there is such a
number or moment is another question, so that the readers here answer in two steps: `none` for
another way of writing, and a fault for a number or moment that does not exist.
-/

namespace IntentGrammar.Yaml

/-- The value of a digit, to bases up to 16. -/
def digit? (c : Char) : Option Nat :=
  if c.isDigit then some (c.toNat - 48)
  else if 'a' ≤ c ∧ c ≤ 'f' then some (c.toNat - 87)
  else if 'A' ≤ c ∧ c ≤ 'F' then some (c.toNat - 55)
  else none

/-- The number that digits spell to a base. -/
def digits? (base : Nat) (cs : List Char) : Option Nat :=
  cs.foldlM (fun n c => ((digit? c).filter (· < base)).map (base * n + ·)) 0

/-- A leading sign, and what follows it. -/
def takeSign : List Char → Bool × List Char
  | '-' :: cs => (true, cs)
  | '+' :: cs => (false, cs)
  | cs => (false, cs)

/-! ### Numbers -/

/-- The most decimal digits that a whole number may have. -/
def mostDigits : Nat := 4300

/-- The whole number that digits to a base spell, underscores between them left out. -/
def natural? (base : Nat) (cs : List Char) : Option (Except Fault Nat) :=
  let digits := cs.filter (· != '_')
  if cs.isEmpty then none
  else
    (digits? base digits).map fun n =>
      if digits.isEmpty then .error (if base = 10 then .noDigits else .outOfRange)
      else if base = 10 ∧ mostDigits < digits.length then .error .outOfRange
      else .ok n

/-- The whole number that a scalar spells. -/
def int? (cs : List Char) : Option (Except Fault Int) :=
  let (negative, body) := takeSign cs
  let size :=
    match body with
    | '0' :: 'b' :: cs => natural? 2 cs
    | '0' :: 'o' :: cs => natural? 8 cs
    | '0' :: 'x' :: cs => natural? 16 cs
    | cs => natural? 10 cs
  if cs.head?.any (· == '_') then none
  else size.map fun r => r.map fun n => if negative then -n else n

/-- An exponent, if there is one: empty, or a sign and digits behind an `e`. -/
def exponent? (signed : Bool) : List Char → Option Int
  | [] => some 0
  | e :: cs =>
    if e = 'e' ∨ e = 'E' then
      let (negative, body) := takeSign cs
      if (signed && body.length == cs.length) || body.isEmpty || !body.all Char.isDigit then none
      else (digits? 10 body).map fun n => if negative then -n else n
    else none

/-- The decimal exponents between which floats lie. -/
def widestExponent : Nat := 400

/-- A decimal number with its exponent as a float.  Far out it is infinite or zero. -/
def scientific (negative : Bool) (mantissa : Nat) (exponent : Int) : Float :=
  let digits := (Nat.toDigits 10 mantissa).length
  let x : Float :=
    if mantissa = 0 ∨ exponent + digits < -(widestExponent : Int) then 0.0
    else if (widestExponent : Int) < exponent + digits then 1.0 / 0.0
    else Float.ofScientific mantissa (exponent < 0) exponent.natAbs
  if negative then -x else x

/-- The float that a scalar spells. -/
def float? (cs : List Char) : Option (Except Fault Float) :=
  let (negative, body) := takeSign cs
  let isPart (c : Char) : Bool := c.isDigit || c == '_'
  let whole := body.takeWhile isPart
  match body.dropWhile isPart with
  | '.' :: behind =>
    let word := String.ofList behind
    if whole.isEmpty ∧ (word = "inf" ∨ word = "Inf" ∨ word = "INF") then
      some (.ok (if negative then -(1.0 / 0.0) else 1.0 / 0.0))
    else if whole.isEmpty ∧ body = cs ∧ (word = "nan" ∨ word = "NaN" ∨ word = "NAN") then
      some (.ok (0.0 / 0.0))
    else
      let written := behind.takeWhile isPart
      let fraction := written.filter (· != '_')
      if whole.head?.any (· == '_') || (whole.isEmpty && written.isEmpty) then none
      else do
        let exponent ← exponent? whole.isEmpty (behind.dropWhile isPart)
        let mantissa ← digits? 10 (whole.filter (· != '_') ++ fraction)
        if whole.isEmpty && fraction.isEmpty then return .error .outOfRange
        else return .ok (scientific negative mantissa (exponent - fraction.length))
  | [] => none
  | behind =>
    if whole.isEmpty || whole.head?.any (· == '_') then none
    else do
      let exponent ← exponent? false behind
      let mantissa ← digits? 10 (whole.filter (· != '_'))
      return .ok (scientific negative mantissa exponent)

/-! ### Moments -/

/-- Read a number of `least` to `most` decimal digits: the number, and what is left. -/
def field? (least most : Nat) (cs : List Char) : Option (Nat × List Char) :=
  let digits := cs.takeWhile Char.isDigit
  if least ≤ digits.length ∧ digits.length ≤ most then
    (digits? 10 digits).map (·, cs.dropWhile Char.isDigit)
  else none

/-- Read a number behind a separator. -/
def fieldBehind? (separator : Char) (least most : Nat) : List Char → Option (Nat × List Char)
  | [] => none
  | c :: cs => if c = separator then field? least most cs else none

/-- Read a zone up to the end of the text: the letter `Z`, or hours and minutes with a sign. -/
def zone? (cs : List Char) : Option (Option Zone) :=
  match cs.dropWhile isMargin with
  | [] => if cs.isEmpty then some none else none
  | ['Z'] => some (some ⟨0, "Z"⟩)
  | sign :: rest =>
    if sign = '+' ∨ sign = '-' then do
      let (hours, behind) ← field? 1 2 rest
      let (minutes, behind) ← if behind.isEmpty then some (0, []) else fieldBehind? ':' 2 2 behind
      let ahead : Int := 60 * hours + minutes
      if behind.isEmpty then
        return some ⟨if sign = '-' then -ahead else ahead, String.ofList (sign :: rest)⟩
      else none
    else none

/-- The parts of a second in millionths, to the nearest of them by the next digit.  They may make
up a whole second. -/
def micros (fraction : List Char) : Nat :=
  let digits := fraction.take 6 ++ List.replicate (6 - fraction.length) '0'
  (digits? 10 digits).getD 0 + (if fraction[6]?.any ('5' ≤ ·) then 1 else 0)

/-- Read a time of day up to the end of the text, behind a letter or spaces. -/
def clock? (cs : List Char) : Option Clock := do
  let lettered := cs.head?.any fun c => c == 'T' || c == 't'
  let cs ←
    if lettered then some (cs.drop 1)
    else if cs.head?.any isMargin then some (cs.dropWhile isMargin)
    else none
  let (hour, cs) ← field? 1 2 cs
  let (minute, cs) ← fieldBehind? ':' 2 2 cs
  let (second, cs) ← fieldBehind? ':' 2 2 cs
  let behind := if cs.head? = some '.' then cs.drop 1 else []
  let zone ← zone? (if cs.head? = some '.' then behind.dropWhile Char.isDigit else cs)
  return ⟨hour, minute, second, micros (behind.takeWhile Char.isDigit), zone, lettered⟩

/-- The moment that a scalar spells.  Without a time of day, month and day have two digits. -/
def moment? (cs : List Char) : Option (Except Fault Moment) := do
  let (year, behindYear) ← field? 4 4 cs
  let (month, behindMonth) ← fieldBehind? '-' 1 2 behindYear
  let (day, behindDay) ← fieldBehind? '-' 1 2 behindMonth
  let m ←
    if behindDay.isEmpty then if cs.length = 10 then some ⟨year, month, day, none⟩ else none
    else (clock? behindDay).map fun c => (⟨year, month, day, some c⟩ : Moment)
  return if m.isReal then .ok m.carry else .error .outOfRange

/-! ### All together -/

/-- What a plain scalar stands for. -/
def resolve (text : List Char) : Except Fault Value :=
  let s := String.ofList text
  if ["", "~", "null", "Null", "NULL"].contains s then .ok .null
  else if ["true", "True", "TRUE"].contains s then .ok (.bool true)
  else if ["false", "False", "FALSE"].contains s then .ok (.bool false)
  else if s = "<<" then .ok (.mark "tag:yaml.org,2002:merge" s)
  else if s = "=" then .ok (.mark "tag:yaml.org,2002:value" s)
  else
    match int? text, float? text, moment? text with
    | some n, _, _ => n.map .int
    | none, some x, _ => x.map .float
    | none, none, some m => m.map .moment
    | none, none, none => .ok (.string s)

end IntentGrammar.Yaml
