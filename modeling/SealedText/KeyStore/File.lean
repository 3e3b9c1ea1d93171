import SealedText.Base64
import SealedText.Json.Reader
import SealedText.KeyStore.Keyring
import SealedText.Text.Utf8

/-!
# Key files

A key file is a JSON document with the keys of a keyring in order, their material in base64. A reader lets
members pass that it does not know, but none that it knows may come twice. A list in place of an object
gives the members in the order in which they are written; only those that have a default may be left out.

`KeyStore` is an open key file. It holds the keys as they were when it was opened, with its own changes
since, and each change that succeeds writes all of them back.
-/

namespace SealedText

namespace KeyFile

/-- The only member of that name, if there is one; nothing if there are several. -/
def unique? (members : List (Option String × Json)) (name : String) : Option (Option Json) :=
  match members.filter (·.1 == some name) with
  | [] => some none
  | [(_, value)] => some (some value)
  | _ => none

/-- The values of the named members, where every key of the object is a text. -/
def fields? (names : List String) (members : List (Option String × Json)) :
    Option (List (Option Json)) :=
  if members.all (·.1.isSome) then names.mapM (unique? members) else none

/-- The values of the named fields of a structure, written as an object or as a list. -/
def structure? (names : List String) : Json → Option (List (Option Json))
  | .object members => fields? names members
  | .array items =>
    if items.length ≤ names.length then
      some (items.map some ++ List.replicate (names.length - items.length) none)
    else none
  | _ => none

def text? : Json → Option String
  | .text content => content
  | _ => none

def flag? : Option Json → Option Bool
  | none => some false
  | some (.bool b) => some b
  | some _ => none

def optionalText? : Option Json → Option (Option String)
  | none => some none
  | some .null => some none
  | some j => (text? j).map some

def material? (j : Json) : Option Bytes := do
  (Base64.decode Base64.standard (← text? j)).toOption

def entryFields : List String := ["id", "name", "material", "wrapped", "revoked", "replacement_id"]

def entry? (j : Json) : Option StoredKey := do
  match ← structure? entryFields j with
  | [some id, some name, some material, wrapped, revoked, replacement] =>
    return {
      id := ← text? id
      name := ← text? name
      material := ← material? material
      wrapped := ← flag? wrapped
      revoked := ← flag? revoked
      successor := ← optionalText? replacement }
  | _ => none

def keyring? (j : Json) : Option Keyring := do
  match ← structure? ["keys"] j with
  | [some (.array items)] => return ⟨← items.mapM entry?⟩
  | _ => none

def ofEntry (e : StoredKey) : Json :=
  let member (name : String) (value : Json) : Option String × Json := (some name, value)
  let replacement := match e.successor with
    | none => []
    | some id => [member "replacement_id" (.text (some id))]
  .object ([member "id" (.text (some e.id)), member "name" (.text (some e.name)),
    member "material" (.text (some (Base64.encode Base64.standard e.material))),
    member "wrapped" (.bool e.wrapped), member "revoked" (.bool e.revoked)] ++ replacement)

def ofKeyring (k : Keyring) : Json := .object [(some "keys", .array (k.entries.map ofEntry))]

/-- The text of a key file. -/
def render (k : Keyring) : String := (ofKeyring k).toText

/-- The keys in the text of a key file. -/
def parse? (text : String) : Option Keyring := do keyring? (← Json.ofText? text)

end KeyFile

/-- An open key file. -/
structure KeyStore where
  path : String
  keyring : Keyring

namespace KeyStore

/-- The open key file with the given content. A file that is not there has no keys. -/
def ofContent (path : String) : Option ByteArray → Except StoreError KeyStore
  | none => .ok ⟨path, {}⟩
  | some content =>
    match Utf8.decode content with
    | .error _ => .error .notUtf8
    | .ok text =>
      match KeyFile.parse? text with
      | none => .error (.malformed path)
      | some keyring => .ok ⟨path, keyring⟩

/-- What the file holds after it is written. -/
def content (s : KeyStore) : String := KeyFile.render s.keyring

/-- Change the keys. The file is written again if and only if the change succeeds. -/
def apply (s : KeyStore) (change : KeyChange) : Except StoreError KeyStore :=
  return { s with keyring := ← s.keyring.apply change }

end KeyStore

end SealedText
