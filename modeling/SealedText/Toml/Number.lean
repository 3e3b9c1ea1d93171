/-!
# Numbers and dates in TOML

Only whole numbers matter to a reader of settings, so a number with a fraction or an exponent is read for
its form alone, but for one rule: it must not be greater than every number of the 64-bit format. Dates and
times are read for their form and for days that exist.
-/

namespace SealedText.Toml

/-- A number or date. -/
inductive Scalar
  | integer (n : Int)
  | float
  | date

/-- The value of a digit in a base up to 16. -/
def digitOf? (base : Nat) (c : Char) : Option Nat :=
  let n :=
    if '0' ≤ c ∧ c ≤ '9' then c.toNat - 48
    else if 'a' ≤ c ∧ c ≤ 'f' then c.toNat - 97 + 10
    else if 'A' ≤ c ∧ c ≤ 'F' then c.toNat - 65 + 10
    else base
  if n < base then some n else none

/-- Digits after a digit, with single underscores between them. -/
def moreDigits (base : Nat) : List Char → Option (List Nat × List Char)
  | [] => some ([], [])
  | '_' :: c :: rest => do
    let d ← digitOf? base c
    let (ds, rest) ← moreDigits base rest
    return (d :: ds, rest)
  | c :: rest =>
    match digitOf? base c with
    | none => some ([], c :: rest)
    | some d => do
      let (ds, rest) ← moreDigits base rest
      return (d :: ds, rest)

/-- One or more digits. -/
def someDigits (base : Nat) : List Char → Option (List Nat × List Char)
  | [] => none
  | c :: rest => do
    let d ← digitOf? base c
    let (ds, rest) ← moreDigits base rest
    return (d :: ds, rest)

/-- The digits of a decimal whole number: a zero stands alone. -/
def wholeDigits : List Char → Option (List Nat × List Char)
  | '0' :: rest => some ([0], rest)
  | cs => someDigits 10 cs

def ofDigits (base : Nat) (ds : List Nat) : Nat := ds.foldl (fun n d => n * base + d) 0

/-- A sign, if there is one: whether it is a minus. -/
def readSign : List Char → Bool × List Char
  | '+' :: rest => (false, rest)
  | '-' :: rest => (true, rest)
  | cs => (false, cs)

/-- The whole numbers of 64 bits. -/
def inRange (n : Int) : Bool := -0x8000000000000000 ≤ n && n < 0x8000000000000000

/-- The least number that rounds up beyond the 64-bit format. -/
def overflowBound : Nat := (1 <<< 1024) - (1 <<< 970)

/-- Whether `digits`, moved by a power of ten, is beyond the 64-bit format. Powers that settle the matter
by their size are not worked out. -/
def overflows (digits : List Nat) (exponent : Int) : Bool :=
  let digits := digits.dropWhile (· == 0)
  let size := (digits.length : Int) + exponent
  if digits.isEmpty || size < 300 then false
  else if size > 310 then true
  else if exponent ≥ 0 then ofDigits 10 digits * Nat.pow 10 exponent.toNat ≥ overflowBound
  else ofDigits 10 digits ≥ overflowBound * Nat.pow 10 (-exponent).toNat

/-- A fraction after its point, if there is one. -/
def readFraction : List Char → Option (List Nat × List Char)
  | '.' :: rest => someDigits 10 rest
  | cs => some ([], cs)

/-- An exponent, if there is one. -/
def readExponent : List Char → Option (Int × List Char)
  | c :: rest =>
    if c = 'e' ∨ c = 'E' then do
      let (negative, rest) := readSign rest
      let (ds, rest) ← someDigits 10 rest
      return (if negative then -(ofDigits 10 ds : Int) else ofDigits 10 ds, rest)
    else some (0, c :: rest)
  | [] => some (0, [])

/-- A decimal number after its sign. -/
def readDecimal (negative : Bool) (cs : List Char) : Option (Scalar × List Char) := do
  let (whole, rest) ← wholeDigits cs
  match rest with
  | '.' :: _ | 'e' :: _ | 'E' :: _ =>
    let (fraction, rest) ← readFraction rest
    let (exponent, rest) ← readExponent rest
    if !negative && overflows (whole ++ fraction) (exponent - fraction.length) then none
    else return (.float, rest)
  | _ =>
    let n : Int := if negative then -(ofDigits 10 whole : Int) else ofDigits 10 whole
    if inRange n then return (.integer n, rest) else none

/-- A whole number in another base, after its mark. -/
def readBased (base : Nat) (cs : List Char) : Option (Scalar × List Char) := do
  let (ds, rest) ← someDigits base cs
  if inRange (ofDigits base ds) then return (.integer (ofDigits base ds), rest) else none

/-! ## Dates -/

/-- A number of exactly `count` digits, between bounds. -/
def fixedDigits (count low high : Nat) (cs : List Char) : Option (Nat × List Char) := do
  let ds ← (cs.take count).mapM (digitOf? 10)
  let n := ofDigits 10 ds
  if ds.length = count ∧ low ≤ n ∧ n ≤ high then return (n, cs.drop count) else none

def expect (c : Char) : List Char → Option (List Char)
  | [] => none
  | d :: rest => if d = c then some rest else none

def isLeapYear (year : Nat) : Bool := year % 4 = 0 && (year % 100 ≠ 0 || year % 400 = 0)

def daysOf (year month : Nat) : Nat :=
  if month = 2 then if isLeapYear year then 29 else 28
  else if month = 4 ∨ month = 6 ∨ month = 9 ∨ month = 11 then 30
  else 31

def readDay (cs : List Char) : Option (List Char) := do
  let (year, cs) ← fixedDigits 4 0 9999 cs
  let (month, cs) ← fixedDigits 2 1 12 (← expect '-' cs)
  let (_, cs) ← fixedDigits 2 1 (daysOf year month) (← expect '-' cs)
  return cs

def readFractionalSeconds : List Char → List Char
  | '.' :: c :: rest => if c.isDigit then rest.dropWhile Char.isDigit else '.' :: c :: rest
  | cs => cs

def readTime (cs : List Char) : Option (List Char) := do
  let (_, cs) ← fixedDigits 2 0 23 cs
  let (_, cs) ← fixedDigits 2 0 59 (← expect ':' cs)
  let (_, cs) ← fixedDigits 2 0 60 (← expect ':' cs)
  return readFractionalSeconds cs

def readOffset? : List Char → Option (List Char)
  | 'Z' :: rest => some rest
  | 'z' :: rest => some rest
  | c :: rest =>
    if c = '+' ∨ c = '-' then do
      let (_, cs) ← fixedDigits 2 0 23 rest
      let (_, cs) ← fixedDigits 2 0 59 (← expect ':' cs)
      return cs
    else none
  | [] => none

/-- A time with its offset, after a day. -/
def readTimeOfDay? : List Char → Option (List Char)
  | c :: rest =>
    if c = 'T' ∨ c = 't' ∨ c = ' ' then do
      let cs ← readTime rest
      return (readOffset? cs).getD cs
    else none
  | [] => none

/-- A day, a time or both; the text after it. -/
def readDate? (cs : List Char) : Option (List Char) :=
  match readDay cs with
  | some cs => some ((readTimeOfDay? cs).getD cs)
  | none => readTime cs

/-- A number or a date. -/
def readScalar (cs : List Char) : Option (Scalar × List Char) :=
  match readDate? cs with
  | some rest => some (.date, rest)
  | none =>
    match cs with
    | '0' :: 'x' :: rest => readBased 16 rest
    | '0' :: 'o' :: rest => readBased 8 rest
    | '0' :: 'b' :: rest => readBased 2 rest
    | _ =>
      let (negative, cs) := readSign cs
      match cs with
      | 'i' :: 'n' :: 'f' :: rest => some (.float, rest)
      | 'n' :: 'a' :: 'n' :: rest => some (.float, rest)
      | _ => readDecimal negative cs

end SealedText.Toml
