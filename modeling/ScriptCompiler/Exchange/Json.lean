import ScriptCompiler.Decimal
import ScriptCompiler.Exchange.Datum

/-!
# Plain data from JSON text

A reader takes characters from the front of a text and answers what it has
read with the characters behind it. A number without a point and an exponent
is an integer if a 64-bit word holds it, with or without a sign; any other
number, the negative zero included, is a binary64 number. Of two fields with
one name the later counts.
-/

namespace ScriptCompiler

namespace Json

/-- Whether a character may stand between tokens. -/
def isBlank (c : Char) : Bool := c = ' ' || c = '\n' || c = '\t' || c = '\r'

/-- The characters behind the blanks at the front. -/
def skipBlanks (cs : List Char) : List Char := cs.dropWhile isBlank

/-- The value of a hexadecimal digit. -/
def hexDigit? (c : Char) : Option Nat :=
  if '0' ≤ c ∧ c ≤ '9' then some (c.toNat - '0'.toNat)
  else if 'a' ≤ c ∧ c ≤ 'f' then some (c.toNat - 'a'.toNat + 10)
  else if 'A' ≤ c ∧ c ≤ 'F' then some (c.toNat - 'A'.toNat + 10)
  else none

/-- Four hexadecimal digits. -/
def hexUnit? : List Char → Option (Nat × List Char)
  | a :: b :: c :: d :: rest => do
    let a ← hexDigit? a
    let b ← hexDigit? b
    let c ← hexDigit? c
    let d ← hexDigit? d
    return (((a * 16 + b) * 16 + c) * 16 + d, rest)
  | _ => none

/-- The character of an escape by number. The upper half of a pair has to be followed by the lower
half. -/
def numberedChar? (cs : List Char) : Option (Char × List Char) := do
  let (high, rest) ← hexUnit? cs
  if high < 0xD800 ∨ 0xDFFF < high then return (Char.ofNat high, rest)
  if 0xDC00 ≤ high then none
  match rest with
  | '\\' :: 'u' :: rest =>
    let (low, rest) ← hexUnit? rest
    if low < 0xDC00 ∨ 0xDFFF < low then none
    return (Char.ofNat (0x10000 + (high - 0xD800) * 0x400 + (low - 0xDC00)), rest)
  | _ => none

/-- The character of an escape, read from behind the backslash. -/
def escapedChar? : List Char → Option (Char × List Char)
  | '"' :: rest => some ('"', rest)
  | '\\' :: rest => some ('\\', rest)
  | '/' :: rest => some ('/', rest)
  | 'b' :: rest => some ('\x08', rest)
  | 'f' :: rest => some ('\x0c', rest)
  | 'n' :: rest => some ('\n', rest)
  | 'r' :: rest => some ('\r', rest)
  | 't' :: rest => some ('\t', rest)
  | 'u' :: rest => numberedChar? rest
  | _ => none

/-- The characters of a text up to its closing quote, with `done` the ones before them. Every step
takes at least one character, so `fuel` is the number of characters left. -/
def text? (done : String) : Nat → List Char → Option (String × List Char)
  | 0, _ => none
  | fuel + 1, cs =>
    match cs with
    | '"' :: rest => some (done, rest)
    | '\\' :: rest => do
      let (c, rest) ← escapedChar? rest
      text? (done.push c) fuel rest
    | c :: rest => if c.toNat < 32 then none else text? (done.push c) fuel rest
    | [] => none

/-- The digits at the front, at least one. -/
def digits? (cs : List Char) : Option (List Nat × List Char) :=
  let digits := (cs.takeWhile Char.isDigit).map fun c => c.toNat - '0'.toNat
  if digits.isEmpty then none else some (digits, cs.dropWhile Char.isDigit)

/-- Digits as a natural number. -/
def natOf (digits : List Nat) : Nat := digits.foldl (fun n digit => 10 * n + digit) 0

/-- The digits behind a point, if there is one. -/
def fraction? : List Char → Option (Option (List Nat) × List Char)
  | '.' :: rest => do
    let (digits, rest) ← digits? rest
    return (some digits, rest)
  | cs => some (none, cs)

/-- The exponent of a number, read from behind its mark. -/
def signedExponent? : List Char → Option (Int × List Char)
  | '-' :: rest => do
    let (digits, rest) ← digits? rest
    return (-natOf digits, rest)
  | '+' :: rest => do
    let (digits, rest) ← digits? rest
    return (natOf digits, rest)
  | cs => do
    let (digits, rest) ← digits? cs
    return (natOf digits, rest)

/-- The exponent of a number, if there is one. -/
def exponent? : List Char → Option (Option Int × List Char)
  | 'e' :: rest | 'E' :: rest => do
    let (exponent, rest) ← signedExponent? rest
    return (some exponent, rest)
  | cs => some (none, cs)

/-- Whether an integer is kept as one. -/
def isWord (negative : Bool) (n : Nat) : Bool :=
  if negative then 0 < n && n ≤ 9223372036854775808 else n < 18446744073709551616

/-- A number behind its sign. -/
def unsigned? (negative : Bool) (cs : List Char) : Option (Datum × List Char) := do
  let (whole, rest) ← digits? cs
  if whole.head? = some 0 ∧ 1 < whole.length then none
  let (fraction, rest) ← fraction? rest
  let (exponent, rest) ← exponent? rest
  if fraction.isNone ∧ exponent.isNone ∧ isWord negative (natOf whole) then
    return (.integer (if negative then -natOf whole else natOf whole), rest)
  let decimal := Decimal.ofDigits negative whole (fraction.getD []) (exponent.getD 0)
  return (.number (← decimal.toBinary64?), rest)

/-- A number. -/
def number? : List Char → Option (Datum × List Char)
  | '-' :: rest => unsigned? true rest
  | cs => unsigned? false cs

/-- Add a field to a record, in place of an earlier one with the same name. -/
def addField (fields : List (String × Datum)) (name : String) (value : Datum) :
    List (String × Datum) :=
  (name, value) :: fields.filter fun field => field.1 ≠ name

/-- The name of a field with its colon. -/
def fieldName? (cs : List Char) : Option (String × List Char) := do
  match skipBlanks cs with
  | '"' :: rest =>
    let (name, rest) ← text? "" rest.length rest
    match skipBlanks rest with
    | ':' :: rest => return (name, rest)
    | _ => none
  | _ => none

mutual

/-- A value. A list or record takes one step for itself and one for each of its parts, and every
part takes a character, so twice the number of characters is enough `fuel`. -/
def value? : Nat → List Char → Option (Datum × List Char)
  | 0, _ => none
  | fuel + 1, cs =>
    match skipBlanks cs with
    | '[' :: rest =>
      match skipBlanks rest with
      | ']' :: rest => some (.list [], rest)
      | rest => items? fuel [] rest
    | '\x7b' :: rest =>
      match skipBlanks rest with
      | '\x7d' :: rest => some (.record [], rest)
      | rest => fields? fuel [] rest
    | '"' :: rest => do
      let (text, rest) ← text? "" rest.length rest
      return (.text text, rest)
    | 'n' :: 'u' :: 'l' :: 'l' :: rest => some (.null, rest)
    | 't' :: 'r' :: 'u' :: 'e' :: rest => some (.bool true, rest)
    | 'f' :: 'a' :: 'l' :: 's' :: 'e' :: rest => some (.bool false, rest)
    | cs => number? cs

/-- The items of a list up to its end, with `done` the ones before them, latest first. -/
def items? : Nat → List Datum → List Char → Option (Datum × List Char)
  | 0, _, _ => none
  | fuel + 1, done, cs => do
    let (item, rest) ← value? fuel cs
    match skipBlanks rest with
    | ',' :: rest => items? fuel (item :: done) rest
    | ']' :: rest => return (.list (item :: done).reverse, rest)
    | _ => none

/-- The fields of a record up to its end, with `done` the ones before them. -/
def fields? : Nat → List (String × Datum) → List Char → Option (Datum × List Char)
  | 0, _, _ => none
  | fuel + 1, done, cs => do
    let (name, rest) ← fieldName? cs
    let (value, rest) ← value? fuel rest
    match skipBlanks rest with
    | ',' :: rest => fields? fuel (addField done name value) rest
    | '\x7d' :: rest => return (.record (addField done name value), rest)
    | _ => none

end

end Json

/-- The data of a JSON text, which has nothing but blanks behind it. -/
def Datum.ofJson? (text : String) : Option Datum := do
  let cs := text.toList
  let (value, rest) ← Json.value? (2 * cs.length) cs
  if (Json.skipBlanks rest).isEmpty then some value else none

end ScriptCompiler
