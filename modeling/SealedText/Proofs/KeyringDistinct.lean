import Mathlib
import SealedText.KeyStore.File
import SealedText.Proofs.Outcomes

/-!
# Keyrings with distinct ids and names

In a keyring whose ids and names are distinct, an id or a name finds the one key that has it. Adding
and deleting keys keeps them distinct, and so does marking a key as revoked: putting it back with
its flag set leaves all other keys as they are (`Distinct.update_revoked`).
-/

namespace SealedText

namespace Keyring

/-- No two keys have the same id, and no two have the same name. -/
structure Distinct (k : Keyring) : Prop where
  ids : (k.entries.map (·.id)).Nodup
  names : (k.entries.map (·.name)).Nodup

/-- The keyring with the flag of the key with an id set. -/
def marking (k : Keyring) (id : String) : Keyring :=
  ⟨k.entries.map fun e => if e.id = id then { e with revoked := true } else e⟩

variable {k k' : Keyring} {e x : StoredKey} {key id name : String}

/-! ## Looking up -/

theorem mem_of_get? (h : k.get? id = some e) : e ∈ k.entries ∧ e.id = id := by
  have hid := List.find?_some h
  exact ⟨List.mem_of_find?_eq_some h, by simpa using hid⟩

theorem mem_of_named? (h : k.named? name = some e) : e ∈ k.entries ∧ e.name = name := by
  have hname := List.find?_some h
  exact ⟨List.mem_of_find?_eq_some h, by simpa using hname⟩

theorem get?_eq_none_iff : k.get? id = none ↔ ∀ e ∈ k.entries, e.id ≠ id := by
  simp [get?]

theorem named?_eq_none_iff : k.named? name = none ↔ ∀ e ∈ k.entries, e.name ≠ name := by
  simp [named?]

theorem Distinct.get?_of_mem (h : k.Distinct) (he : e ∈ k.entries) : k.get? e.id = some e := by
  rcases hfound : k.get? e.id with _ | found
  · exact absurd rfl (get?_eq_none_iff.1 hfound e he)
  · obtain ⟨hmem, hid⟩ := mem_of_get? hfound
    rw [List.inj_on_of_nodup_map h.ids hmem he hid]

theorem Distinct.named?_of_mem (h : k.Distinct) (he : e ∈ k.entries) :
    k.named? e.name = some e := by
  rcases hfound : k.named? e.name with _ | found
  · exact absurd rfl (named?_eq_none_iff.1 hfound e he)
  · obtain ⟨hmem, hname⟩ := mem_of_named? hfound
    rw [List.inj_on_of_nodup_map h.names hmem he hname]

theorem mem_of_lookup (h : k.lookup key = .ok e) : e ∈ k.entries := by
  unfold lookup at h
  split at h
  · rename_i found hfound
    cases h
    rcases hget : k.get? key with _ | other <;> rw [hget] at hfound
    · exact (mem_of_named? hfound).1
    · cases hfound
      exact (mem_of_get? hget).1
  · cases h

/-- Ids are tried before names. -/
theorem Distinct.lookup_id (h : k.Distinct) (he : e ∈ k.entries) : k.lookup e.id = .ok e := by
  unfold lookup
  rw [h.get?_of_mem he]
  rfl

theorem Distinct.lookup_name (h : k.Distinct) (he : e ∈ k.entries)
    (hfree : ∀ x ∈ k.entries, x.id = e.name → x = e) : k.lookup e.name = .ok e := by
  rcases hget : k.get? e.name with _ | x
  · unfold lookup
    rw [hget, h.named?_of_mem he]
    rfl
  · obtain ⟨hmem, hid⟩ := mem_of_get? hget
    have hx : x = e := hfree x hmem hid
    subst hx
    unfold lookup
    rw [hget]
    rfl

/-! ## Changes -/

theorem distinct_empty : Distinct {} := ⟨List.nodup_nil, List.nodup_nil⟩

theorem Distinct.add (h : k.Distinct) (hadd : k.add e = .ok k') : k'.Distinct := by
  unfold Keyring.add at hadd
  split_ifs at hadd with hid hname
  cases hadd
  rw [Option.isSome_iff_ne_none, not_not, get?_eq_none_iff] at hid
  rw [Option.isSome_iff_ne_none, not_not, named?_eq_none_iff] at hname
  constructor
  · rw [List.map_append, List.nodup_append]
    refine ⟨h.ids, List.nodup_singleton _, ?_⟩
    simpa using hid
  · rw [List.map_append, List.nodup_append]
    refine ⟨h.names, List.nodup_singleton _, ?_⟩
    simpa using hname

theorem Distinct.delete (h : k.Distinct) (hdelete : k.delete id = .ok k') : k'.Distinct := by
  unfold Keyring.delete at hdelete
  split_ifs at hdelete
  cases hdelete
  have hsub : (k.entries.filter (·.id != id)).Sublist k.entries := List.filter_sublist
  exact ⟨h.ids.sublist (hsub.map _), h.names.sublist (hsub.map _)⟩

theorem ids_marking : (k.marking id).entries.map (·.id) = k.entries.map (·.id) := by
  rw [marking, List.map_map]
  refine List.map_congr_left fun e _ => ?_
  simp only [Function.comp_apply]
  split_ifs <;> rfl

theorem names_marking : (k.marking id).entries.map (·.name) = k.entries.map (·.name) := by
  rw [marking, List.map_map]
  refine List.map_congr_left fun e _ => ?_
  simp only [Function.comp_apply]
  split_ifs <;> rfl

theorem distinct_marking (h : k.Distinct) (id : String) : (k.marking id).Distinct := by
  constructor
  · rw [ids_marking]
    exact h.ids
  · rw [names_marking]
    exact h.names

theorem map_marking_of_revoked {entries : List StoredKey}
    (h : ∀ x ∈ entries, x.id = id → x.revoked = true) :
    (entries.map fun x => if x.id = id then { x with revoked := true } else x) = entries := by
  refine (List.map_congr_left fun x hx => ?_).trans (List.map_id entries)
  split_ifs with hid
  · rw [← h x hx hid]
    rfl
  · rfl

theorem replaceFirst_eq_map : ∀ {entries : List StoredKey}, (entries.map (·.id)).Nodup →
    e ∈ entries → replaceFirst { e with revoked := true } entries =
      entries.map fun x => if x.id = e.id then { x with revoked := true } else x
  | x :: entries, hids, hmem => by
    rw [List.map_cons, List.nodup_cons] at hids
    obtain ⟨hx, hids⟩ := hids
    rw [replaceFirst, List.map_cons]
    by_cases hid : x.id = e.id
    · rcases List.mem_cons.1 hmem with rfl | hmem
      · rw [if_pos rfl, if_pos rfl, map_marking_of_revoked]
        intro y hy hid
        rw [← hid] at hx
        exact absurd (List.mem_map.2 ⟨y, hy, rfl⟩) hx
      · exact absurd (List.mem_map.2 ⟨e, hmem, hid.symm⟩) hx
    · have hmem : e ∈ entries := (List.mem_cons.1 hmem).resolve_left fun h => hid (h ▸ rfl)
      rw [if_neg hid, if_neg hid, replaceFirst_eq_map hids hmem]

/-- Putting a key back with its flag set marks it and nothing else. -/
theorem Distinct.update_revoked (h : k.Distinct) (he : e ∈ k.entries) :
    k.update { e with revoked := true } = .ok (k.marking e.id) := by
  have hget : (k.get? e.id).isSome = true := by rw [h.get?_of_mem he]; rfl
  unfold update
  rw [if_pos hget, replaceFirst_eq_map h.ids he, marking]

/-- Marking a key that is marked already changes nothing. -/
theorem Distinct.marking_of_revoked (h : k.Distinct) (he : e ∈ k.entries) (hrevoked : e.revoked) :
    k.marking e.id = k := by
  rw [marking, map_marking_of_revoked]
  intro x hx hid
  rw [List.inj_on_of_nodup_map h.ids hx he hid, hrevoked]

end Keyring

end SealedText
