import SealedText.Proofs.KeyFileDurable

/-!
# Which changes keep the names of a keyring distinct

The ids of a keyring stay distinct under every change. The names do not: an update checks no name,
so it can give a key the name of another. Nothing else can (`distinct_after_iff`), so the names are
distinct all along a run exactly if no update on the way takes a name that is in use
(`unique_afterAll`).
-/

namespace SealedText

/-- The change is no update of a key to the name of another. -/
def KeyChange.KeepsNames (k : Keyring) : KeyChange → Prop
  | .update e => ∀ x ∈ k.entries, x.id = e.id → ∀ y ∈ k.entries, y.id ≠ e.id → y.name ≠ e.name
  | _ => True

namespace Keyring

variable {k : Keyring} {c : KeyChange} {entries entries' : List StoredKey} {e x : StoredKey}

theorem ids_of_effect (h : c.Effect entries entries') (hids : (entries.map (·.id)).Nodup) :
    (entries'.map (·.id)).Nodup := by
  cases h with
  | @add _ e hid _ =>
    rw [List.map_append, List.nodup_append]
    refine ⟨hids, List.nodup_singleton _, ?_⟩
    simpa using hid
  | update hid _ =>
    rw [List.map_append, List.map_cons, hid] at hids
    rwa [List.map_append, List.map_cons]
  | delete _ => exact hids.sublist (List.filter_sublist.map _)

/-- An update puts the new name in the place of one that goes, next to the names of the others. -/
theorem names_update_iff {before after : List StoredKey} (hid : x.id = e.id)
    (hids : ((before ++ x :: after).map (·.id)).Nodup)
    (hnames : ((before ++ x :: after).map (·.name)).Nodup) :
    ((before ++ e :: after).map (·.name)).Nodup ↔
      ∀ y ∈ before ++ x :: after, y.id ≠ e.id → y.name ≠ e.name := by
  rw [List.map_append, List.map_cons, List.nodup_middle, ← List.map_append, List.nodup_cons]
    at hids hnames ⊢
  obtain ⟨hothers, -⟩ := hids
  rw [and_iff_left hnames.2]
  constructor
  · intro hname y hy hne
    rcases List.perm_middle.mem_iff.1 hy with _ | ⟨_, hy⟩
    · exact absurd hid hne
    · exact fun h => hname (h ▸ List.mem_map_of_mem hy)
  · intro hkept hname
    obtain ⟨y, hy, hyname⟩ := List.mem_map.1 hname
    refine hkept y (List.perm_middle.mem_iff.2 (List.mem_cons_of_mem _ hy)) (fun hne => ?_) hyname
    exact hothers (hid ▸ hne ▸ List.mem_map_of_mem hy)

theorem distinct_of_effect_iff (h : c.Effect k.entries entries') (hk : k.Distinct) :
    Distinct ⟨entries'⟩ ↔ c.KeepsNames k := by
  have hids := ids_of_effect h hk.ids
  have hkeyring := apply_ok_iff.2 h
  rcases k with ⟨entries⟩
  cases h with
  | add _ _ => exact iff_of_true (hk.add hkeyring) trivial
  | delete _ => exact iff_of_true (hk.delete hkeyring) trivial
  | @update before after x e hid hfirst =>
    have hnames := names_update_iff hid hk.ids hk.names
    constructor
    · intro hdistinct _ _ _
      exact hnames.1 hdistinct.names
    · intro hkept
      exact ⟨hids, hnames.2 (hkept x (List.mem_append_right _ List.mem_cons_self) hid)⟩

/-- A change that fails changes nothing, and then it keeps the names as well. -/
theorem keepsNames_of_error {err : StoreError} (h : k.apply c = .error err) : c.KeepsNames k := by
  cases c with
  | update e =>
    intro x hx hid
    rw [apply, update, if_pos (isSome_get?_iff.2 ⟨x, hx, hid⟩)] at h
    cases h
  | add _ => trivial
  | delete _ => trivial

theorem distinct_after_iff (hk : k.Distinct) (c : KeyChange) :
    (k.after c).Distinct ↔ c.KeepsNames k := by
  rcases happly : k.apply c with err | k'
  · rw [after_of_error happly]
    exact iff_of_true hk (keepsNames_of_error happly)
  · rw [after_of_ok happly]
    exact distinct_of_effect_iff (apply_ok_iff.1 happly) hk

theorem ids_after (h : (k.entries.map (·.id)).Nodup) (c : KeyChange) :
    ((k.after c).entries.map (·.id)).Nodup := by
  rcases happly : k.apply c with err | k'
  · rwa [after_of_error happly]
  · rw [after_of_ok happly]
    exact ids_of_effect (apply_ok_iff.1 happly) h

theorem ids_afterAll : ∀ (changes : List KeyChange) {k : Keyring}, (k.entries.map (·.id)).Nodup →
    ((k.afterAll changes).entries.map (·.id)).Nodup
  | [], _, h => h
  | c :: changes, _, h => ids_afterAll changes (ids_after h c)

/-- The keys stay distinct as long as every change keeps the names. -/
theorem distinct_afterAll (hk : k.Distinct) (changes : List KeyChange)
    (h : ∀ earlier c, earlier ++ [c] <+: changes → c.KeepsNames (k.afterAll earlier)) :
    (k.afterAll changes).Distinct := by
  induction changes using List.reverseRecOn with
  | nil => exact hk
  | append_singleton earlier c ih =>
    have hearlier := ih fun start x hstart => h start x (hstart.trans (List.prefix_append _ _))
    rw [afterAll_concat, distinct_after_iff hearlier]
    exact h earlier c List.prefix_rfl

end Keyring

/-- In every run from an empty keyring, in memory or in a file, the ids are distinct at every point.
The names are distinct at every point exactly if no change gives a key the name of another. -/
theorem unique_afterAll (path : String) (changes : List KeyChange) :
    (∀ earlier, earlier <+: changes →
      ((OpenKeyFile.missing path).afterAll earlier).store.keyring = Keyring.afterAll {} earlier ∧
        ((Keyring.afterAll {} earlier).entries.map (·.id)).Nodup) ∧
    ((∀ earlier, earlier <+: changes →
        ((Keyring.afterAll {} earlier).entries.map (·.name)).Nodup) ↔
      ∀ earlier c, earlier ++ [c] <+: changes →
        c.KeepsNames (Keyring.afterAll {} earlier)) := by
  have hids (earlier : List KeyChange) := Keyring.ids_afterAll earlier Keyring.distinct_empty.ids
  refine ⟨fun earlier _ => ⟨?_, hids earlier⟩, ?_, ?_⟩
  · rw [OpenKeyFile.store_afterAll]
    rfl
  · intro hnames earlier c hprefix
    have hbefore := hnames earlier ((List.prefix_append _ _).trans hprefix)
    have hafter := hnames (earlier ++ [c]) hprefix
    have hids' := hids (earlier ++ [c])
    rw [Keyring.afterAll_concat] at hafter hids'
    exact (Keyring.distinct_after_iff ⟨hids earlier, hbefore⟩ c).1 ⟨hids', hafter⟩
  · intro hkept earlier hprefix
    refine (Keyring.distinct_afterAll Keyring.distinct_empty earlier ?_).names
    exact fun start c hstart => hkept start c (hstart.trans hprefix)

/-- The second key is given a name that is new. -/
theorem rename_keeps_distinct :
    let changes : List KeyChange := [
      .add { id := "1", name := "a", material := [1] },
      .add { id := "2", name := "b", material := [2] },
      .update { id := "2", name := "c", material := [2] }]
    ∀ earlier, earlier <+: changes →
      ((Keyring.afterAll {} earlier).entries.map (·.name)).Nodup := by
  intro changes
  refine (unique_afterAll "keys.json" changes).2.2 fun earlier c hprefix => ?_
  rcases earlier with _ | ⟨x, _ | ⟨y, _ | ⟨z, rest⟩⟩⟩ <;>
    simp only [changes, List.nil_append, List.cons_append, List.cons_prefix_cons, List.nil_prefix,
      List.prefix_nil, List.append_eq_nil_iff, List.cons_ne_self, and_true, and_false] at hprefix
  · obtain rfl := hprefix
    trivial
  · obtain ⟨rfl, rfl⟩ := hprefix
    trivial
  · obtain ⟨rfl, rfl, rfl⟩ := hprefix
    unfold KeyChange.KeepsNames
    decide

/-- An update gives the second key the name of the first. -/
theorem update_duplicates_name :
    let changes : List KeyChange := [
      .add { id := "1", name := "a", material := [1] },
      .add { id := "2", name := "b", material := [2] },
      .update { id := "2", name := "a", material := [2] }]
    let k := Keyring.afterAll {} changes
    k.entries.map (fun e => (e.id, e.name)) = [("1", "a"), ("2", "a")] ∧ ¬ k.Distinct :=
  ⟨by decide, fun h => absurd h.names (by decide)⟩

end SealedText
