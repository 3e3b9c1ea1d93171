import SealedText.Bytes
import SealedText.Text.Quoted

/-!
# Keyrings

A keyring is a list of keys, oldest first. A key has an id, drawn at random, and a name that its user
chose; looking one up by either tries the ids first. Only `add` insists that ids and names are new.
-/

namespace SealedText

structure StoredKey where
  id : String
  name : String
  /-- The secret itself, or the secret under a passphrase if `wrapped`. -/
  material : Bytes
  wrapped : Bool := false
  revoked : Bool := false
  /-- The key that takes its place. -/
  successor : Option String := none
  deriving DecidableEq, Repr

/-- What may be shown of a key: everything but its material. -/
def StoredKey.redacted (e : StoredKey) : String :=
  let replacement := match e.successor with
    | none => "None"
    | some id => s!"Some({quotedText id})"
  s!"KeyEntry \x7b id: {quotedText e.id}, name: {quotedText e.name}, " ++
    s!"material: [REDACTED; {e.material.length} bytes], wrapped: {e.wrapped}, " ++
    s!"revoked: {e.revoked}, replacement_id: {replacement} \x7d"

inductive StoreError
  | duplicateId (id : String)
  | duplicateName (name : String)
  | notFound (key : String)
  /-- The file is no key file. -/
  | malformed (path : String)
  | notUtf8
  deriving DecidableEq, Repr

/-- What stands in front of the details about a file that is no key file. -/
def StoreError.malformedIntro (path : String) : String := s!"key store error: parsing {path}: "

def StoreError.message : StoreError → String
  | duplicateId id => s!"key store error: duplicate key id {id}"
  | duplicateName name => s!"key store error: a key named '{name}' already exists"
  | notFound key => s!"no key with id or name '{key}'"
  | malformed path => malformedIntro path ++ "not a list of keys in JSON"
  | notUtf8 => "I/O error: stream did not contain valid UTF-8"

structure Keyring where
  entries : List StoredKey := []
  deriving DecidableEq, Repr

namespace Keyring

def get? (k : Keyring) (id : String) : Option StoredKey := k.entries.find? (·.id == id)

def named? (k : Keyring) (name : String) : Option StoredKey := k.entries.find? (·.name == name)

/-- The key with an id or, failing that, a name. -/
def lookup (k : Keyring) (key : String) : Except StoreError StoredKey :=
  match (k.get? key).orElse fun _ => k.named? key with
  | some e => .ok e
  | none => .error (.notFound key)

def add (k : Keyring) (e : StoredKey) : Except StoreError Keyring :=
  if (k.get? e.id).isSome then .error (.duplicateId e.id)
  else if (k.named? e.name).isSome then .error (.duplicateName e.name)
  else .ok ⟨k.entries ++ [e]⟩

/-- Put a key in the place of the first one with its id. -/
def replaceFirst (e : StoredKey) : List StoredKey → List StoredKey
  | [] => []
  | x :: rest => if x.id = e.id then e :: rest else x :: replaceFirst e rest

def update (k : Keyring) (e : StoredKey) : Except StoreError Keyring :=
  if (k.get? e.id).isSome then .ok ⟨replaceFirst e k.entries⟩ else .error (.notFound e.id)

def delete (k : Keyring) (id : String) : Except StoreError Keyring :=
  if (k.get? id).isSome then .ok ⟨k.entries.filter (·.id != id)⟩ else .error (.notFound id)

end Keyring

/-- A change to a keyring. -/
inductive KeyChange
  | add (e : StoredKey)
  | update (e : StoredKey)
  | delete (id : String)
  deriving DecidableEq, Repr

def Keyring.apply (k : Keyring) : KeyChange → Except StoreError Keyring
  | .add e => k.add e
  | .update e => k.update e
  | .delete id => k.delete id

end SealedText
