import NestedStyles.Css.Name
import NestedStyles.Css.Token

/-!
# Numbers in CSS

Decimal numbers with a sign, a fraction and an exponent, all but the digits optional, and ranges
of code points.
-/

namespace NestedStyles.Css

/-- The sign at the start of a text, if there is one. -/
def signOf (s : List Char) : List Char :=
  (s.take 1).filter fun c => c == '+' || c == '-'

/-- The decimal digits at the start of a text. -/
def digitsOf (s : List Char) : List Char :=
  s.takeWhile Char.isDigit

/-- The point and the digits after it, if a digit follows the point. -/
def fractionOf : List Char → List Char
  | [] => []
  | c :: rest => if c == '.' && !(digitsOf rest).isEmpty then c :: digitsOf rest else []

/-- The exponent of a number, if it has digits. -/
def exponentOf : List Char → List Char
  | [] => []
  | c :: rest =>
    let sign := signOf rest
    let digits := digitsOf (rest.drop sign.length)
    if (c == 'e' || c == 'E') && !digits.isEmpty then c :: sign ++ digits else []

/-- The value of decimal digits. -/
def decimalValue (digits : List Char) : Nat :=
  digits.foldl (fun n c => 10 * n + (c.toNat - 0x30)) 0

/-- The number at the start of a text. -/
def readNumeral? (s : List Char) : Option (Numeral × List Char) :=
  let sign := signOf s
  let whole := digitsOf (s.drop sign.length)
  let fraction := fractionOf (s.drop (sign ++ whole).length)
  let exponent := exponentOf (s.drop (sign ++ whole ++ fraction).length)
  let text := sign ++ whole ++ fraction ++ exponent
  let value : Int := if sign == ['-'] then -decimalValue whole else decimalValue whole
  if whole.isEmpty && fraction.isEmpty then none
  else
    some (⟨.ofList text, if fraction.isEmpty && exponent.isEmpty then some value else none⟩,
      s.drop text.length)

theorem length_readNumeral? {c : Char} {rest after : List Char} {n : Numeral}
    (h : readNumeral? (c :: rest) = some (n, after)) : after.length ≤ rest.length := by
  simp only [readNumeral?] at h
  split at h
  · cases h
  · next hne =>
    simp only [Option.some.injEq, Prod.mk.injEq] at h
    obtain ⟨-, rfl⟩ := h
    simp only [Bool.and_eq_true, List.isEmpty_iff, not_and] at hne
    generalize digitsOf _ = whole at *
    generalize fractionOf _ = fraction at *
    simp only [List.length_drop, List.length_append, List.length_cons]
    rcases whole with _ | ⟨_, _⟩
    · have := hne rfl
      rcases fraction with _ | ⟨_, _⟩
      · exact absurd rfl this
      · simp only [List.length_cons]; omega
    · simp only [List.length_cons]; omega

/-- A range of code points, given the text after `U+`: up to six digits and question marks, which
stand for any digit, or two numbers with a hyphen between them. -/
def readUnicodeRange (s : List Char) : Token × List Char :=
  let digits := (s.take 6).takeWhile isHexDigit
  let rest := s.drop digits.length
  let marks := (rest.take (6 - digits.length)).takeWhile (· == '?')
  let last := ((rest.drop 1).take 6).takeWhile isHexDigit
  if !marks.isEmpty then
    (.unicodeRange (hexValue (digits ++ marks.map fun _ => '0'))
      (hexValue (digits ++ marks.map fun _ => 'F')), rest.drop marks.length)
  else if rest.head? == some '-' && !last.isEmpty then
    (.unicodeRange (hexValue digits) (hexValue last), rest.drop (1 + last.length))
  else (.unicodeRange (hexValue digits) (hexValue digits), rest)

theorem length_readUnicodeRange (s : List Char) : (readUnicodeRange s).2.length ≤ s.length := by
  unfold readUnicodeRange
  simp only
  split
  · simp
  · split <;> simp

end NestedStyles.Css
