import SealedText.Proofs.KeyFileRoundTrip
import SealedText.Proofs.KeyringDistinct

/-!
# A key file is a keyring made durable

The keys of an open file go through any number of changes, and so does a keyring in memory. Both
answer alike and hold the same keys (`store_afterAll`): a change that succeeds does what `Effect`
says, and one that fails leaves the keys and the file as they were. After every change the file
opens as what is in memory (`Reopens.afterAll`), since what is written is read back.
-/

namespace SealedText

/-- What a change that succeeds does to the list of keys: a new key comes last, an update takes the
place of the first key with its id, and the keys that stay after a deletion keep their order. -/
inductive KeyChange.Effect : KeyChange → List StoredKey → List StoredKey → Prop
  | add {entries : List StoredKey} {e : StoredKey} (hid : ∀ x ∈ entries, x.id ≠ e.id)
      (hname : ∀ x ∈ entries, x.name ≠ e.name) : Effect (.add e) entries (entries ++ [e])
  | update {before after : List StoredKey} {x e : StoredKey} (hid : x.id = e.id)
      (hfirst : ∀ y ∈ before, y.id ≠ e.id) :
      Effect (.update e) (before ++ x :: after) (before ++ e :: after)
  | delete {entries : List StoredKey} {id : String} (hfound : ∃ x ∈ entries, x.id = id) :
      Effect (.delete id) entries (entries.filter (·.id != id))

/-- What a change answers when it succeeds: the id of the key, if it is a new one. -/
def KeyChange.answer : KeyChange → Option String
  | .add e => some e.id
  | _ => none

namespace Keyring

/-- The keyring after a change. One that fails leaves it as it is. -/
def after (k : Keyring) (c : KeyChange) : Keyring := (k.apply c).toOption.getD k

def afterAll (k : Keyring) (changes : List KeyChange) : Keyring := changes.foldl after k

def answer (k : Keyring) (c : KeyChange) : Except StoreError (Option String) :=
  (k.apply c).map fun _ => c.answer

variable {k k' : Keyring} {e : StoredKey} {id : String}

theorem isSome_get?_iff : (k.get? id).isSome = true ↔ ∃ x ∈ k.entries, x.id = id := by
  simp [get?]

theorem replaceFirst_append {x : StoredKey} {after : List StoredKey} (hx : x.id = e.id) :
    ∀ {before : List StoredKey}, (∀ y ∈ before, y.id ≠ e.id) →
      replaceFirst e (before ++ x :: after) = before ++ e :: after
  | [], _ => by rw [List.nil_append, replaceFirst, if_pos hx]; rfl
  | y :: before, h => by
    obtain ⟨hy, hbefore⟩ := List.forall_mem_cons.1 h
    rw [List.cons_append, replaceFirst, if_neg hy, replaceFirst_append hx hbefore]
    rfl

theorem add_ok_iff :
    k.add e = .ok k' ↔ (KeyChange.add e).Effect k.entries k'.entries := by
  rcases k with ⟨entries⟩
  rcases k' with ⟨entries'⟩
  constructor
  · intro h
    unfold add at h
    split_ifs at h with hid hname
    cases h
    rw [Option.isSome_iff_ne_none, not_not, get?_eq_none_iff] at hid
    rw [Option.isSome_iff_ne_none, not_not, named?_eq_none_iff] at hname
    exact .add hid hname
  · rintro ⟨hid, hname⟩
    have hget : get? ⟨entries⟩ e.id = none := get?_eq_none_iff.2 hid
    have hnamed : named? ⟨entries⟩ e.name = none := named?_eq_none_iff.2 hname
    unfold add
    rw [hget, hnamed]
    rfl

theorem update_ok_iff :
    k.update e = .ok k' ↔ (KeyChange.update e).Effect k.entries k'.entries := by
  rcases k with ⟨entries⟩
  rcases k' with ⟨entries'⟩
  constructor
  · intro h
    unfold update at h
    split_ifs at h with hfound
    cases h
    obtain ⟨x, hx⟩ := Option.isSome_iff_exists.1 hfound
    obtain ⟨hid, before, after, rfl, hbefore⟩ := List.find?_eq_some_iff_append.1 hx
    have hid : x.id = e.id := by simpa using hid
    have hbefore : ∀ y ∈ before, y.id ≠ e.id := by simpa using hbefore
    rw [replaceFirst_append hid hbefore]
    exact .update hid hbefore
  · intro h
    cases h with
    | @update before after x _ hid hbefore =>
      have hfound : (get? ⟨before ++ x :: after⟩ e.id).isSome = true :=
        isSome_get?_iff.2 ⟨x, by simp, hid⟩
      change update ⟨before ++ x :: after⟩ e = .ok ⟨before ++ e :: after⟩
      unfold update
      rw [if_pos hfound, replaceFirst_append hid hbefore]

theorem delete_ok_iff :
    k.delete id = .ok k' ↔ (KeyChange.delete id).Effect k.entries k'.entries := by
  rcases k with ⟨entries⟩
  rcases k' with ⟨entries'⟩
  constructor
  · intro h
    unfold delete at h
    split_ifs at h with hfound
    cases h
    exact .delete (isSome_get?_iff.1 hfound)
  · intro h
    cases h with
    | delete hfound =>
      unfold delete
      rw [if_pos (isSome_get?_iff.2 hfound)]

theorem apply_ok_iff {c : KeyChange} : k.apply c = .ok k' ↔ c.Effect k.entries k'.entries := by
  cases c with
  | add e => exact add_ok_iff
  | update e => exact update_ok_iff
  | delete id => exact delete_ok_iff

theorem after_of_ok {c : KeyChange} (h : k.apply c = .ok k') : k.after c = k' := by
  rw [after, h]
  rfl

theorem after_of_error {c : KeyChange} {err : StoreError} (h : k.apply c = .error err) :
    k.after c = k := by
  rw [after, h]
  rfl

theorem afterAll_concat (k : Keyring) (changes : List KeyChange) (c : KeyChange) :
    k.afterAll (changes ++ [c]) = (k.afterAll changes).after c := by
  rw [afterAll, List.foldl_concat, ← afterAll]

theorem answer_ok_iff {c : KeyChange} {answer : Option String} :
    k.answer c = .ok answer ↔ answer = c.answer ∧ ∃ k', k.apply c = .ok k' := by
  unfold Keyring.answer
  cases k.apply c <;> simp [Except.map, eq_comm]

theorem answer_error_iff {c : KeyChange} {err : StoreError} :
    k.answer c = .error err ↔ k.apply c = .error err := by
  unfold Keyring.answer
  cases k.apply c <;> simp [Except.map]

end Keyring

/-- An open key file with what the file holds, if there is one. -/
structure OpenKeyFile where
  store : KeyStore
  content : Option ByteArray

namespace OpenKeyFile

/-- What opening a path finds where there is no file. -/
def missing (path : String) : OpenKeyFile := ⟨⟨path, {}⟩, none⟩

/-- The file after a change. It is written again if the change succeeds. -/
def after (f : OpenKeyFile) (c : KeyChange) : OpenKeyFile :=
  match f.store.apply c with
  | .ok store => ⟨store, some store.content.toUTF8⟩
  | .error _ => f

def afterAll (f : OpenKeyFile) (changes : List KeyChange) : OpenKeyFile := changes.foldl after f

def answer (f : OpenKeyFile) (c : KeyChange) : Except StoreError (Option String) :=
  (f.store.apply c).map fun _ => c.answer

/-- The file opens as the store that has it open. -/
def Reopens (f : OpenKeyFile) : Prop := KeyStore.ofContent f.store.path f.content = .ok f.store

variable {f : OpenKeyFile}

theorem Reopens.ofContent_eq {s : KeyStore} (h : f.Reopens) (hs : f.store = s) :
    KeyStore.ofContent s.path f.content = .ok s := hs ▸ h

theorem answer_eq (f : OpenKeyFile) (c : KeyChange) :
    f.answer c = f.store.keyring.answer c := by
  unfold answer Keyring.answer KeyStore.apply
  cases f.store.keyring.apply c <;> rfl

theorem after_of_ok {c : KeyChange} {keyring : Keyring}
    (h : f.store.keyring.apply c = .ok keyring) :
    f.after c = ⟨{ f.store with keyring }, some (KeyFile.render keyring).toUTF8⟩ := by
  rw [after, KeyStore.apply, h]
  rfl

theorem after_of_error {c : KeyChange} {err : StoreError}
    (h : f.store.keyring.apply c = .error err) : f.after c = f := by
  rw [after, KeyStore.apply, h]
  rfl

theorem store_after (f : OpenKeyFile) (c : KeyChange) :
    (f.after c).store = ⟨f.store.path, f.store.keyring.after c⟩ := by
  rcases happly : f.store.keyring.apply c with err | keyring
  · rw [after_of_error happly, Keyring.after_of_error happly]
  · rw [after_of_ok happly, Keyring.after_of_ok happly]

theorem Reopens.after (h : f.Reopens) (c : KeyChange) : (f.after c).Reopens := by
  rcases happly : f.store.keyring.apply c with err | keyring
  · rw [after_of_error happly]
    exact h
  · rw [after_of_ok happly]
    exact KeyStore.ofContent_content { f.store with keyring }

theorem reopens_missing (path : String) : (missing path).Reopens := rfl

theorem store_afterAll : ∀ (changes : List KeyChange) (f : OpenKeyFile),
    (f.afterAll changes).store = ⟨f.store.path, f.store.keyring.afterAll changes⟩
  | [], _ => rfl
  | c :: changes, f => by
    refine (store_afterAll changes (f.after c)).trans ?_
    rw [store_after]
    rfl

theorem Reopens.afterAll : ∀ (changes : List KeyChange) {f : OpenKeyFile}, f.Reopens →
    (f.afterAll changes).Reopens
  | [], _, h => h
  | c :: changes, _, h => Reopens.afterAll changes (h.after c)

end OpenKeyFile

/-- A key file that was not there goes through the same changes as an empty keyring in memory: at
every point the next change has the same answer and leaves the same keys, one that fails leaves the
file as it is, and the file opens as the keys in memory. -/
theorem durable_afterAll (path : String) (changes : List KeyChange) (c : KeyChange) :
    let file := (OpenKeyFile.missing path).afterAll changes
    let memory := Keyring.afterAll {} changes
    KeyStore.ofContent path none = .ok (OpenKeyFile.missing path).store ∧
      file.store = ⟨path, memory⟩ ∧ KeyStore.ofContent path file.content = .ok ⟨path, memory⟩ ∧
      file.answer c = memory.answer c ∧ (file.after c).store = ⟨path, memory.after c⟩ ∧
      KeyStore.ofContent path (file.after c).content = .ok ⟨path, memory.after c⟩ ∧
      (∀ answer, memory.answer c = .ok answer →
        answer = c.answer ∧ c.Effect memory.entries (memory.after c).entries) ∧
      ∀ err, memory.answer c = .error err →
        file.after c = file ∧ memory.after c = memory ∧
          ∀ entries, ¬ c.Effect memory.entries entries := by
  intro file memory
  have hstore : file.store = ⟨path, memory⟩ := OpenKeyFile.store_afterAll changes (.missing path)
  have hreopens := (OpenKeyFile.reopens_missing path).afterAll changes
  have hafter : (file.after c).store = ⟨path, memory.after c⟩ := by
    rw [file.store_after, hstore]
  have hanswer : file.answer c = memory.answer c := by rw [file.answer_eq, hstore]
  refine ⟨rfl, hstore, hreopens.ofContent_eq hstore, hanswer, hafter,
    (hreopens.after c).ofContent_eq hafter, ?_, ?_⟩
  · intro answer hmemory
    obtain ⟨hid, after, happly⟩ := Keyring.answer_ok_iff.1 hmemory
    rw [Keyring.after_of_ok happly]
    exact ⟨hid, Keyring.apply_ok_iff.1 happly⟩
  · intro err hmemory
    have happly := Keyring.answer_error_iff.1 hmemory
    have hfile : file.store.keyring.apply c = .error err := by
      rw [hstore]
      exact happly
    refine ⟨OpenKeyFile.after_of_error hfile, Keyring.after_of_error happly, ?_⟩
    intro entries heffect
    have hok : memory.apply c = .ok ⟨entries⟩ := Keyring.apply_ok_iff.2 heffect
    rw [happly] at hok
    cases hok

/-- A key that is there already is refused, and the file still opens with it. -/
theorem refusedAdd_keeps_file :
    let e : StoredKey := { id := "1", name := "a", material := [1], revoked := true }
    let file := (OpenKeyFile.missing "keys.json").afterAll [.add e]
    file.answer (.add e) = .error (.duplicateId "1") ∧ file.after (.add e) = file ∧
      KeyStore.ofContent "keys.json" file.content = .ok ⟨"keys.json", ⟨[e]⟩⟩ := by
  intro e file
  obtain ⟨-, -, hopen, hanswer, -, -, -, hfailed⟩ :=
    durable_afterAll "keys.json" [.add e] (.add e)
  have hrefused : (Keyring.afterAll {} [.add e]).answer (.add e) = .error (.duplicateId "1") := rfl
  exact ⟨hanswer.trans hrefused, (hfailed _ hrefused).1, hopen⟩

end SealedText
