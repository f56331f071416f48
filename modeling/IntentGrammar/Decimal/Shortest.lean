/-!
# Shortest decimals

A binary floating point number is shown by the fewest digits that read back as the same number,
and among those by the nearest.  `decode` takes a number apart into `mantissa · 2 ^ exponent`,
`shortest` finds the decimal `digits · 10 ^ scale`, and `Layout.render` writes it down; all
arithmetic in between is exact, on natural numbers.
-/

namespace IntentGrammar.Decimal

/-- A floating point number taken apart. -/
inductive Decoded where
  | nan
  | infinite (negative : Bool)
  /-- The number `mantissa · 2 ^ exponent`, or its negation. -/
  | finite (negative : Bool) (mantissa : Nat) (exponent : Int)

/-- Read sign, mantissa and exponent off the bits of a double. -/
def decode (x : Float) : Decoded :=
  let bits := x.toBits.toNat
  let negative := bits / Nat.pow 2 63 == 1
  let biased : Nat := bits / Nat.pow 2 52 % 2048
  let fraction : Nat := bits % Nat.pow 2 52
  if biased == 2047 then
    if fraction == 0 then .infinite negative else .nan
  else if biased == 0 then .finite negative fraction (-1074)
  else .finite negative (Nat.pow 2 52 + fraction) ((biased : Int) - 1075)

/-- The whole number that the float is equal to, if it has no fraction. -/
def whole? (x : Float) : Option Int :=
  match decode x with
  | .finite negative m q =>
    let signed (n : Nat) : Int := if negative then -n else n
    if 0 ≤ q then some (signed (m * Nat.pow 2 q.toNat))
    else if m % Nat.pow 2 (-q).toNat == 0 then some (signed (m / Nat.pow 2 (-q).toNat))
    else none
  | _ => none

/-- The decimal `digits · 10 ^ scale`. -/
structure Digits where
  digits : Nat
  scale : Int

/-- Both sides of a comparison between `d` and `k · 2 ^ q / 4`, brought to whole numbers. -/
def Digits.against (d : Digits) (k : Nat) (q : Int) : Nat × Nat :=
  (d.digits * Nat.pow 10 d.scale.toNat * Nat.pow 2 (2 - q).toNat,
    k * Nat.pow 2 (q - 2).toNat * Nat.pow 10 (-d.scale).toNat)

/-- `d` rounds to `m · 2 ^ q`: it lies between the midpoints to the two neighbouring doubles,
which themselves round to the even mantissa. -/
def Digits.readsBack (d : Digits) (m : Nat) (q : Int) : Bool :=
  let below := if m == Nat.pow 2 52 && q != -1074 then 1 else 2
  let (x, low) := d.against (4 * m - below) q
  let (_, high) := d.against (4 * m + 2) q
  if m % 2 == 0 then low ≤ x && x ≤ high else low < x && x < high

/-- How far `d` is from `m · 2 ^ q`, comparable among decimals of one scale. -/
def Digits.distance (d : Digits) (m : Nat) (q : Int) : Nat :=
  let (x, y) := d.against (4 * m) q
  (x - y) + (y - x)

/-- The exponent of the leading decimal digit of `m · 2 ^ q`, for a positive `m`. -/
def leading (m : Nat) (q : Int) : Int :=
  let shift : Nat := 330
  let shifted := m * Nat.pow 2 q.toNat * Nat.pow 10 shift / Nat.pow 2 (-q).toNat
  (Nat.toDigits 10 shifted).length - (1 + shift : Int)

/-- The better of the two neighbours of `m · 2 ^ q` on the grid `10 ^ scale`, if one reads back;
a tie goes to the even one. -/
def onGrid? (m : Nat) (q scale : Int) : Option Digits :=
  let floor := m * Nat.pow 2 q.toNat * Nat.pow 10 (-scale).toNat /
    (Nat.pow 2 (-q).toNat * Nat.pow 10 scale.toNat)
  let down : Digits := ⟨floor, scale⟩
  let up : Digits := ⟨floor + 1, scale⟩
  match down.readsBack m q, up.readsBack m q with
  | true, false => some down
  | false, true => some up
  | false, false => none
  | true, true =>
    let toDown := down.distance m q
    let toUp := up.distance m q
    if toDown < toUp || (toDown == toUp && floor % 2 == 0) then some down else some up

/-- The shortest decimal that rounds to `m · 2 ^ q`; seventeen digits always suffice. -/
def shortest (m : Nat) (q : Int) : Digits :=
  let top := leading m q
  ((List.range 17).findSome? fun (d : Nat) => onGrid? m q (top - d)).getD ⟨0, 0⟩

/-- How a decimal is laid out: point positions from `positionalFrom` to `positionalTo` are written
without an exponent, and an exponent has at least `exponentWidth` digits. -/
structure Layout where
  positionalFrom : Int
  positionalTo : Int
  exponentWidth : Nat

/-- The digits without the zeros at their end, and the position of the point counted from
their left end. -/
def Digits.normal (d : Digits) : List Char × Int :=
  let text := Nat.toDigits 10 d.digits
  ((text.reverse.dropWhile (· == '0')).reverse, text.length + d.scale)

/-- Write a positive decimal. -/
def Layout.positive (l : Layout) (d : Digits) : List Char :=
  let (ds, point) := d.normal
  if l.positionalFrom ≤ point && point ≤ l.positionalTo then
    if point ≤ 0 then '0' :: '.' :: List.replicate (-point).toNat '0' ++ ds
    else if ds.length ≤ point then
      ds ++ List.replicate (point.toNat - ds.length) '0' ++ ['.', '0']
    else ds.take point.toNat ++ '.' :: ds.drop point.toNat
  else
    let exponent := point - 1
    let size := Nat.toDigits 10 exponent.natAbs
    let fraction := if ds.length ≤ 1 then [] else '.' :: ds.drop 1
    ds.take 1 ++ fraction ++ ['e', if exponent < 0 then '-' else '+'] ++
      List.replicate (l.exponentWidth - size.length) '0' ++ size

/-- The shortest text of a float. -/
def Layout.render (l : Layout) (x : Float) : String :=
  match decode x with
  | .nan => "nan"
  | .infinite negative => if negative then "-inf" else "inf"
  | .finite negative m q =>
    let sign := if negative then ['-'] else []
    let body := if m == 0 then ['0', '.', '0'] else l.positive (shortest m q)
    String.ofList (sign ++ body)

end IntentGrammar.Decimal
