import EdgeCompose.Config.Toml.Tree
import EdgeCompose.Number.Decimal

/-!
The words of TOML: blanks, comments, keys, strings, numbers and moments in time. A reader takes
its word off the front of a text and gives the rest.
-/

namespace EdgeCompose.Toml

open Text (isDigit digitsValue hexValue? dropLead?)

def isBlank (c : Char) : Bool := c == ' ' || c == '\t'

def skipBlanks (t : Text) : Text := t.dropWhile isBlank

/-- What may stand in comments and strings: everything but control characters. -/
def isPlain (c : Char) : Bool := c == '\t' || (0x20 ≤ c.toNat && c.toNat != 0x7F)

def newline? : Text → Option Text
  | '\n' :: t => some t
  | '\r' :: '\n' :: t => some t
  | _ => none

def skipComment : Text → Text
  | '#' :: t => t.dropWhile isPlain
  | t => t

/-- The end of a line, with blanks and a comment before it. -/
def lineEnd? (t : Text) : Option Text :=
  match skipComment (skipBlanks t) with
  | [] => some []
  | t => newline? t

/-- Skips blanks, comments and line ends. -/
def skipVoid (t : Text) : Text :=
  let after := skipComment (skipBlanks t)
  match newline? after with
  | some rest => if rest.length < t.length then skipVoid rest else after
  | none => after
termination_by t.length

/-- The character with a number written in so many hexadecimal digits. -/
def codePoint? (width : Nat) (t : Text) : Option (Char × Text) :=
  let digits := (t.take width).filterMap hexValue?
  let n := digits.foldl (fun n d => 16 * n + d) 0
  if digits.length == width && n.isValidChar then some (Char.ofNat n, t.drop width) else none

/-- The character that an escape stands for, after the backslash. -/
def escape? : Text → Option (Char × Text)
  | 'b' :: t => some ('\x08', t)
  | 't' :: t => some ('\t', t)
  | 'n' :: t => some ('\n', t)
  | 'f' :: t => some ('\x0c', t)
  | 'r' :: t => some ('\r', t)
  | '"' :: t => some ('"', t)
  | '\\' :: t => some ('\\', t)
  | 'u' :: t => codePoint? 4 t
  | 'U' :: t => codePoint? 8 t
  | _ => none

/-- Skips blanks and line ends. -/
def skipLines (t : Text) : Text :=
  match newline? (skipBlanks t) with
  | some rest => if rest.length < t.length then skipLines rest else rest
  | none => skipBlanks t
termination_by t.length

/-- In a string of several lines, a backslash at the end of a line skips what is blank up to the
next other character. -/
def continuation? (t : Text) : Option Text := (newline? (skipBlanks t)).map skipLines

/-- How a run of quotes ends a string of several lines: up to two of them belong to it. -/
def closing? (run : Nat) : Option Nat :=
  if 3 ≤ run && run ≤ 5 then some (run - 3) else none

/-- The content of a string through its closing quotes. -/
def stringBody (quote : Char) (escapes lines : Bool) (t : Text) : Option (Text × Text) :=
  let goOn (written : Text) (rest : Text) : Option (Text × Text) :=
    if rest.length < t.length then
      (stringBody quote escapes lines rest).map fun (body, after) => (written ++ body, after)
    else none
  match t with
  | [] => none
  | c :: rest =>
    if c == quote then
      if lines then
        let run := t.takeWhile (· == quote)
        match closing? run.length with
        | some kept => some (List.replicate kept quote, t.drop run.length)
        | none => if run.length ≤ 2 then goOn run (t.drop run.length) else none
      else some ([], rest)
    else if escapes && c == '\\' then
      match (if lines then continuation? rest else none) with
      | some after => goOn [] after
      | none => (escape? rest).bind fun (d, after) => goOn [d] after
    else
      match (if lines then newline? t else none) with
      | some after => goOn ['\n'] after
      | none => if isPlain c then goOn [c] rest else none
termination_by t.length

/-- A string of one line. -/
def line? : Text → Option (Text × Text)
  | '"' :: t => stringBody '"' true false t
  | '\'' :: t => stringBody '\'' false false t
  | _ => none

/-- A string; three quotes begin one of several lines, whose first line end does not count. -/
def string? (t : Text) : Option (Text × Text) :=
  let lines (quote : Char) (escapes : Bool) (body : Text) : Option (Text × Text) :=
    stringBody quote escapes true ((newline? body).getD body)
  match t with
  | '"' :: '"' :: '"' :: body => lines '"' true body
  | '\'' :: '\'' :: '\'' :: body => lines '\'' false body
  | _ => line? t

def isBareChar (c : Char) : Bool := Text.isAlphanumeric c || c == '-' || c == '_'

def simpleKey? (t : Text) : Option (Text × Text) :=
  let bare := t.takeWhile isBareChar
  if bare.isEmpty then line? t else some (bare, t.drop bare.length)

/-- Keys with dots between them. -/
def keyPath? (t : Text) : Option (List Text × Text) :=
  match simpleKey? (skipBlanks t) with
  | none => none
  | some (k, rest) =>
    match skipBlanks rest with
    | '.' :: more =>
      if more.length < t.length then (keyPath? more).map fun (path, after) => (k :: path, after)
      else none
    | after => some ([k], after)
termination_by t.length

/-- No more keys than this stand in one path, and values nest less deeply. -/
def maxDepth : Nat := 80

/-- The path to a table and the key in it. -/
def key? (t : Text) : Option ((List Text × Text) × Text) := do
  let (path, rest) ← keyPath? t
  let last ← path.getLast?
  if path.length < maxDepth then some ((path.dropLast, last), rest) else none

/-! ## Numbers and moments -/

def sign (t : Text) : Bool × Text :=
  match t with
  | '-' :: t => (true, t)
  | '+' :: t => (false, t)
  | _ => (false, t)

/-- The digits of a number, without the underscores that may stand between two of them. -/
def digits? (isDigit : Char → Bool) (t : Text) : Option Text :=
  let groups := t.splitOn '_'
  if groups.all fun g => !g.isEmpty && g.all isDigit then some groups.flatten else none

/-- Decimal digits without a zero before others. -/
def whole? (t : Text) : Option Text :=
  (digits? isDigit t).filter fun ds => ds.length == 1 || ds.head? != some '0'

def inBase? (base : Nat) (t : Text) : Option Nat :=
  let isDigit (c : Char) : Bool := (hexValue? c).any (· < base)
  (digits? isDigit t).map fun ds =>
    (ds.filterMap hexValue?).foldl (fun n d => base * n + d) 0

/-- Integers have 64 bits. -/
def integer? (t : Text) : Option Int :=
  let n : Option Int := match t with
    | '0' :: 'x' :: t => (inBase? 16 t).map Int.ofNat
    | '0' :: 'o' :: t => (inBase? 8 t).map Int.ofNat
    | '0' :: 'b' :: t => (inBase? 2 t).map Int.ofNat
    | _ =>
      let (negative, t) := sign t
      (whole? t).map fun ds =>
        if negative then -Int.ofNat (digitsValue ds) else Int.ofNat (digitsValue ds)
  n.filter fun n => -9223372036854775808 ≤ n && n ≤ 9223372036854775807

def exponent? (t : Text) : Option Text :=
  match t with
  | [] => some []
  | _ :: t =>
    let (negative, t) := sign t
    (digits? isDigit t).map fun ds => 'e' :: (if negative then '-' :: ds else ds)

def fraction? (t : Text) : Option Text :=
  match t with
  | [] => some []
  | _ :: t => (digits? isDigit t).map ('.' :: ·)

/-- A number with a fraction, an exponent, or both, or one of the words for infinity and for no
number. One that is too large is none. -/
def float? (t : Text) : Option Double :=
  let (negative, t) := sign t
  if t == "inf".toList then some (.infinite negative)
  else if t == "nan".toList then some .nan
  else
    let isExponent (c : Char) : Bool := c == 'e' || c == 'E'
    let mantissa := t.takeWhile (! isExponent ·)
    let afterWhole := mantissa.dropWhile (· != '.')
    let exponent := t.dropWhile (! isExponent ·)
    if afterWhole.isEmpty && exponent.isEmpty then none
    else do
      let whole ← whole? (mantissa.takeWhile (· != '.'))
      let fraction ← fraction? afterWhole
      let exponent ← exponent? exponent
      let value ← Decimal.unsigned? negative (whole ++ fraction ++ exponent)
      if value == .infinite false then none else some value

/-- A number of so many digits between two bounds. -/
def bounded? (width low high : Nat) (t : Text) : Option Nat :=
  let n := digitsValue t
  if t.length == width && t.all isDigit && low ≤ n && n ≤ high then some n else none

def isLeap (year : Nat) : Bool := year % 4 == 0 && (year % 100 != 0 || year % 400 == 0)

def daysIn (year month : Nat) : Nat :=
  if month == 2 then if isLeap year then 29 else 28
  else if [4, 6, 9, 11].contains month then 30
  else 31

def isDate (t : Text) : Bool :=
  match t.splitOn '-' with
  | [year, month, day] =>
    match bounded? 4 0 9999 year, bounded? 2 1 12 month with
    | some y, some m => (bounded? 2 1 (daysIn y m) day).isSome
    | _, _ => false
  | _ => false

def isHourMinute (t : Text) : Bool :=
  match t.splitOn ':' with
  | [hour, minute] => (bounded? 2 0 23 hour).isSome && (bounded? 2 0 59 minute).isSome
  | _ => false

/-- The time of a day with seconds, and perhaps a part of a second. -/
def isTime (t : Text) : Bool :=
  let endsWell := match t.drop 8 with
    | [] => true
    | '.' :: digits => !digits.isEmpty && digits.all isDigit
    | _ => false
  isHourMinute (t.take 5) && (t.drop 5).head? == some ':' &&
    (bounded? 2 0 60 ((t.drop 6).take 2)).isSome && endsWell

/-- A time with an offset after it, or without one. -/
def isOffsetTime (t : Text) : Bool :=
  isTime t ||
    (match t.getLast? with
      | some c => (c == 'Z' || c == 'z') && isTime t.dropLast
      | none => false) ||
    (let cut := t.length - 6
      let offset := t.drop cut
      (offset.head? == some '+' || offset.head? == some '-') && isHourMinute (offset.drop 1) &&
        isTime (t.take cut))

def isMoment (t : Text) : Bool :=
  isDate t || isTime t ||
    (isDate (t.take 10) &&
      (match t.drop 10 with
        | c :: time => (c == 'T' || c == 't') && isOffsetTime time
        | [] => false))

/-- The characters of numbers, moments and the two truth values. -/
def isWordChar (c : Char) : Bool := Text.isAlphanumeric c || "+-_.:".toList.contains c

def word? (t : Text) : Option Node :=
  if t == "true".toList then some (.truth true)
  else if t == "false".toList then some (.truth false)
  else if isMoment t then some .moment
  else (integer? t).map .integer <|> (float? t).map .float

/-- A value that is one word; a blank may stand between a date and a time. -/
def scalar? (t : Text) : Option (Node × Text) :=
  let word := t.takeWhile isWordChar
  let rest := t.dropWhile isWordChar
  match isDate word, rest with
  | true, ' ' :: more =>
    if isOffsetTime (more.takeWhile isWordChar) then some (.moment, more.dropWhile isWordChar)
    else some (.moment, rest)
  | _, _ => (word? word).map (·, rest)

end EdgeCompose.Toml
