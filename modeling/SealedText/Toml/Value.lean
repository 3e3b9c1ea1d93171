/-!
# TOML values and tables

A table is a list of entries in the order in which they came. How a table came about decides who may still
add to it:

* under its own header, or as an element of an array of tables: the lines under that header;
* on the way to another header: those, and later a header of its own;
* on the way of a dotted key: further dotted keys;
* between braces: nobody.
-/

namespace SealedText

inductive TableOrigin
  | header
  | passedByHeader
  | passedByKey
  | braces
  deriving DecidableEq, Repr

inductive Toml
  | text (content : String)
  | integer (n : Int)
  | float
  | boolean (b : Bool)
  | date
  | array (items : List Toml)
  | table (origin : TableOrigin) (entries : List (String × Toml))
  | tables (elements : List (List (String × Toml)))

namespace Toml

abbrev Entries := List (String × Toml)

namespace Entries

def get? (es : Entries) (key : String) : Option Toml := es.lookup key

/-- Set the value of a key, in its place if it is there and at the end otherwise. -/
def put (key : String) (value : Toml) : Entries → Entries
  | [] => [(key, value)]
  | e :: rest => if e.1 = key then (key, value) :: rest else e :: put key value rest

/-- Change the last of some tables. -/
def changeLast (f : Entries → Option Entries) : List Entries → Option (List Entries)
  | [] => none
  | [es] => do return [← f es]
  | es :: rest => do return es :: (← changeLast f rest)

/-- Enter a new key at the end of a dotted path. Tables that are missing on the way are made. Those that
are there must have been passed before, the last of them by such a key. -/
def assign (key : String) (value : Toml) : List String → Entries → Option Entries
  | [], es => if (es.get? key).isSome then none else some (es ++ [(key, value)])
  | step :: rest, es =>
    match es.get? step with
    | none => do return es.put step (.table .passedByKey (← assign key value rest []))
    | some (.table origin inner) =>
      if origin = .passedByKey ∨ (origin = .passedByHeader ∧ rest ≠ []) then do
        return es.put step (.table origin (← assign key value rest inner))
      else none
    | some (.tables elements) =>
      if rest = [] then none
      else do return es.put step (.tables (← changeLast (assign key value rest) elements))
    | some _ => none

/-- Change what a header names. Tables that are missing on the way are made; values and tables between
braces are not entered. -/
def place (final : Option Toml → Option Toml) : List String → Entries → Option Entries
  | [], _ => none
  | [key], es => do return es.put key (← final (es.get? key))
  | step :: rest, es =>
    match es.get? step with
    | none => do return es.put step (.table .passedByHeader (← place final rest []))
    | some (.table origin inner) =>
      if origin = .braces then none
      else do return es.put step (.table origin (← place final rest inner))
    | some (.tables elements) => do
      return es.put step (.tables (← changeLast (place final rest) elements))
    | some _ => none

/-- Change the table that the latest header opened. -/
def within (f : Entries → Option Entries) : List String → Entries → Option Entries
  | [], es => f es
  | step :: rest, es =>
    match es.get? step with
    | some (.table origin inner) => do
      return es.put step (.table origin (← within f rest inner))
    | some (.tables elements) => do
      return es.put step (.tables (← changeLast (within f rest) elements))
    | _ => none

end Entries

/-- What the header of a table makes of what is there. -/
def openTable : Option Toml → Option Toml
  | none => some (.table .header [])
  | some (.table .passedByHeader es) => some (.table .header es)
  | some _ => none

/-- What the header of an element makes of what is there. -/
def openElement : Option Toml → Option Toml
  | none => some (.tables [[]])
  | some (.tables elements) => some (.tables (elements ++ [[]]))
  | some _ => none

end Toml

end SealedText
