import SealedText.KeyStore.File
import SealedText.Proofs.Base64RoundTrip
import SealedText.Proofs.JsonRoundTrip

/-!
# Key files read back as the keyring they hold

The material of a key is in base64 and its successor is left out if there is none; both are read
back, and so is every other field (`entry?_ofEntry`). With the document around the keys, a key file
opens as the keyring that was written to it, with all its keys in their order (`ofContent_content`).
-/

namespace SealedText

namespace KeyFile

theorem entry?_ofEntry (e : StoredKey) : entry? (ofEntry e) = some e := by
  have hmaterial : Base64.decode Base64.standard (Base64.encode Base64.standard e.material) =
      .ok e.material := Base64.decode_encode Base64.sound_standard e.material
  rcases e with ⟨id, name, material, wrapped, revoked, _ | successor⟩ <;>
    simp [ofEntry, entry?, structure?, fields?, entryFields, unique?, text?, material?, flag?,
      optionalText?, hmaterial, Except.toOption]

theorem plain_ofEntry (e : StoredKey) : (ofEntry e).Plain := by
  rcases e with ⟨id, name, material, wrapped, revoked, _ | successor⟩ <;>
    refine .object ?_ ?_ <;> simp [Json.Plain.text, Json.Plain.bool]

theorem keyring?_ofKeyring (k : Keyring) : keyring? (ofKeyring k) = some k := by
  have hentries : (k.entries.mapM fun e => entry? (ofEntry e)) = some k.entries := by
    simp only [entry?_ofEntry]
    exact List.mapM_pure.trans (congrArg some (List.map_id _))
  simp [keyring?, ofKeyring, structure?, fields?, unique?, Function.comp_def, hentries]

theorem plain_ofKeyring (k : Keyring) : (ofKeyring k).Plain := by
  refine .object (by simp) ?_
  simp only [List.mem_singleton, forall_eq]
  refine .array fun item hitem => ?_
  obtain ⟨e, -, rfl⟩ := List.mem_map.1 hitem
  exact plain_ofEntry e

theorem parse?_render (k : Keyring) : parse? (render k) = some k := by
  rw [parse?, render, Json.ofText?_toText (plain_ofKeyring k)]
  exact keyring?_ofKeyring k

end KeyFile

/-- A key file opens as what was written to it. -/
theorem KeyStore.ofContent_content (s : KeyStore) :
    ofContent s.path (some s.content.toUTF8) = .ok s := by
  simp only [ofContent, content, Utf8.decode_toUTF8, KeyFile.parse?_render]

end SealedText
