import NestedStyles.Css.Token
import NestedStyles.Css.Numeral

/-!
# Arguments `an+b`

The arguments of the pseudo-classes that count siblings: `odd`, `even`, a number, or a multiple of
`n` with a number added or taken away. `readNth` gives the two coefficients, or nothing for an
argument of another form.
-/

namespace NestedStyles.Css

/-- A text that ends where its grammar needs one more token. -/
inductive CutOff
  /-- Nothing follows the `+` that an `an+b` starts with. -/
  | afterPlus
  /-- Nothing follows the sign in front of `b`. -/
  | afterSign
  /-- Nothing follows the bar between a namespace and a name. -/
  | afterBar
  deriving DecidableEq, Repr

/-- The coefficients of `an+b`. -/
abbrev Coefficients := Int × Int

/-- The tokens from the first that is not white space. -/
def significant (ts : List Token) : List Token :=
  ts.dropWhile Token.isWhitespace

/-- The number in `n-1`, with its sign. A newline may follow it. -/
def afterN? : List Char → Option Int
  | 'n' :: '-' :: rest =>
    let digits := if rest.getLast? == some '\n' then rest.dropLast else rest
    if !digits.isEmpty && digits.all Char.isDigit then some (-decimalValue digits) else none
  | _ => none

/-- Nothing may follow the coefficients. -/
def nthEnd (a b : Int) (ts : List Token) : Option Coefficients :=
  if (significant ts).isEmpty then some (a, b) else none

/-- A number without a sign must follow the sign in front of `b`. -/
def nthNumber (a : Int) (sign : Int) (ts : List Token) : Except CutOff (Option Coefficients) :=
  match significant ts with
  | [] => .error .afterSign
  | .number n :: rest =>
    .ok (n.integer.bind fun b => if n.isSigned then none else nthEnd a (sign * b) rest)
  | _ => .ok none

/-- What may follow `an`. -/
def nthRest (a : Int) (ts : List Token) : Except CutOff (Option Coefficients) :=
  match significant ts with
  | [] => .ok (some (a, 0))
  | .literal "+" :: rest => nthNumber a 1 rest
  | .literal "-" :: rest => nthNumber a (-1) rest
  | .number n :: rest => .ok (n.integer.bind fun b => if n.isSigned then nthEnd a b rest else none)
  | _ => .ok none

/-- What `n` with the coefficient `a` is written with, and what may follow it. -/
def nthUnit (a : Int) (unit : List Char) (ts : List Token) :
    Except CutOff (Option Coefficients) :=
  if unit == ['n'] then nthRest a ts
  else if unit == ['n', '-'] then nthNumber a (-1) ts
  else .ok ((afterN? unit).bind fun b => nthEnd a b ts)

/-- Reads an argument `an+b`. -/
def readNth (ts : List Token) : Except CutOff (Option Coefficients) :=
  match significant ts with
  | [] => .ok none
  | .number n :: rest => .ok (n.integer.bind fun b => nthEnd 0 b rest)
  | .dimension n unit :: rest =>
    match n.integer with
    | some a => nthUnit a (unit.toList.map Char.toLower) rest
    | none => .ok none
  | .ident value :: rest =>
    match value.toList.map Char.toLower with
    | ['e', 'v', 'e', 'n'] => .ok (nthEnd 2 0 rest)
    | ['o', 'd', 'd'] => .ok (nthEnd 2 1 rest)
    | '-' :: unit => nthUnit (-1) unit rest
    | unit => nthUnit 1 unit rest
  | .literal "+" :: rest =>
    match rest with
    | [] => .error .afterPlus
    | .ident value :: rest => nthUnit 1 (value.toList.map Char.toLower) rest
    | _ => .ok none
  | _ => .ok none

end NestedStyles.Css
