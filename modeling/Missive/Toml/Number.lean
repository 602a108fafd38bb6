import Missive.Number.Reading
import Missive.Toml.Basic

/-!
# Missive.Toml.Number

Numbers, dates and times in TOML.
-/

namespace Missive.Toml

/-- Digits of a class, in which single underscores stand between digits. -/
def groupedDigits? (isDigit : Char → Bool) : List Char → Option (List Char)
  | [] => none
  | [c] => if isDigit c then some [c] else none
  | c :: '_' :: rest => if isDigit c then (c :: ·) <$> groupedDigits? isDigit rest else none
  | c :: rest => if isDigit c then (c :: ·) <$> groupedDigits? isDigit rest else none

/-- A decimal number without a sign: no zero stands before another digit. -/
def unsignedDigits? (cs : List Char) : Option (List Char) :=
  match cs with
  | ['0'] => some ['0']
  | '0' :: _ => none
  | cs => groupedDigits? isDigit cs

/-- A sign, which may be missing, and the rest. -/
def splitSign (cs : List Char) : List Char × List Char :=
  match cs with
  | '-' :: rest => (['-'], rest)
  | '+' :: rest => ([], rest)
  | cs => ([], cs)

/-- The value of a digit in a base of at most sixteen. -/
def digitIn? (base : Nat) (c : Char) : Option Nat :=
  let n := if isDigit c then digitValue c
    else if 'a' ≤ c ∧ c ≤ 'f' then c.toNat - 'a'.toNat + 10
    else if 'A' ≤ c ∧ c ≤ 'F' then c.toNat - 'A'.toNat + 10
    else base
  if n < base then some n else none

/-- A number in a base, after its mark. -/
def basedInteger? (base : Nat) (cs : List Char) : Option Item := do
  let digits ← groupedDigits? (fun c => (digitIn? base c).isSome) cs
  let n := digits.foldl (fun n c => base * n + (digitIn? base c).getD 0) 0
  if n < Int64.size / 2 then some (.integer n) else none

/-- A whole number. -/
def integer? : List Char → Option Item
  | '0' :: 'x' :: rest => basedInteger? 16 rest
  | '0' :: 'o' :: rest => basedInteger? 8 rest
  | '0' :: 'b' :: rest => basedInteger? 2 rest
  | cs => do
    let (sign, rest) := splitSign cs
    let n ← readInt? (Int64.size / 2) (sign ++ (← unsignedDigits? rest))
    return .integer n

/-- An exponent after its letter. -/
def exponent? (cs : List Char) : Option (List Char) := do
  let (sign, rest) := splitSign cs
  return sign ++ (← groupedDigits? isDigit rest)

/-- A number with a fraction, an exponent, or both.  One that is too large is refused. -/
def decimal? (cs : List Char) : Option Item := do
  let (sign, rest) := splitSign cs
  let isMark (c : Char) := c == 'e' || c == 'E'
  let mantissa := rest.takeWhile (!isMark ·)
  let whole ← unsignedDigits? (mantissa.takeWhile (· != '.'))
  let fraction ←
    match mantissa.dropWhile (· != '.') with
    | [] => some []
    | _ :: digits => ('.' :: ·) <$> groupedDigits? isDigit digits
  let exponent ←
    match rest.dropWhile (!isMark ·) with
    | [] => some []
    | _ :: digits => ('e' :: ·) <$> exponent? digits
  if fraction.isEmpty && exponent.isEmpty then none
  else
    let x ← Double.read? (sign ++ whole ++ fraction ++ exponent)
    if x == .infinity false then none else some (.float x)

/-- Infinity or NaN. -/
def special? (cs : List Char) : Option Item :=
  let (sign, rest) := splitSign cs
  if rest == "inf".toList then some (.float (.infinity (sign == ['-'])))
  else if rest == "nan".toList then some (.float (.nan (sign == ['-'])))
  else none

/-! ## dates and times -/

/-- A number of exactly `width` digits in a range. -/
def field? (width least greatest : Nat) (cs : List Char) : Option Nat :=
  if cs.length == width && cs.all isDigit then
    let n := digitsValue cs
    if least ≤ n && n ≤ greatest then some n else none
  else none

/-- The number of days of a month. -/
def daysIn (year month : Nat) : Nat :=
  let leap := year % 4 == 0 && (year % 100 != 0 || year % 400 == 0)
  if month == 2 then (if leap then 29 else 28)
  else if [4, 6, 9, 11].contains month then 30
  else 31

/-- Whether a text is a date. -/
def isDate (cs : List Char) : Bool :=
  match field? 4 0 9999 (cs.take 4), field? 2 1 12 ((cs.drop 5).take 2) with
  | some year, some month =>
    cs.length == 10 && (cs.drop 4).head? == some '-' && (cs.drop 7).head? == some '-' &&
      (field? 2 1 (daysIn year month) (cs.drop 8)).isSome
  | _, _ => false

/-- Whether a text is hours and minutes. -/
def isClock (cs : List Char) : Bool :=
  cs.length == 5 && (field? 2 0 23 (cs.take 2)).isSome && (cs.drop 2).head? == some ':' &&
    (field? 2 0 59 (cs.drop 3)).isSome

/-- Whether a text is a time; a minute may have a leap second. -/
def isTime (cs : List Char) : Bool :=
  isClock (cs.take 5) && (cs.drop 5).head? == some ':' &&
    (field? 2 0 60 ((cs.drop 6).take 2)).isSome &&
    match cs.drop 8 with
    | [] => true
    | '.' :: digits => !digits.isEmpty && digits.all isDigit
    | _ => false

/-- Whether a text is a time that an offset may follow. -/
def isOffsetTime (cs : List Char) : Bool :=
  isTime cs ||
    match cs.reverse with
    | 'Z' :: time => isTime time.reverse
    | 'z' :: time => isTime time.reverse
    | _ =>
      let time := cs.take (cs.length - 6)
      match cs.drop (cs.length - 6) with
      | '+' :: clock => isTime time && isClock clock
      | '-' :: clock => isTime time && isClock clock
      | _ => false

/-- A date, a time, or a date and a time with a letter between them. -/
def moment? (cs : List Char) : Option Item :=
  let dateAndTime := isDate (cs.take 10) &&
    match cs.drop 10 with
    | 'T' :: time => isOffsetTime time
    | 't' :: time => isOffsetTime time
    | _ => false
  if isDate cs || isTime cs || dateAndTime then some .moment else none

/-- A truth value. -/
def truth? (cs : List Char) : Option Item :=
  if cs == "true".toList then some (.bool true)
  else if cs == "false".toList then some (.bool false)
  else none

/-- A value that is one unbroken word. -/
def word? (cs : List Char) : Option Item :=
  truth? cs <|> special? cs <|> integer? cs <|> decimal? cs <|> moment? cs

end Missive.Toml
