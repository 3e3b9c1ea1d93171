import SealedText.Proofs.KeyFileDurable

/-!
# A key file in two hands

Two holders can have the same key file open. Each of them reads it once, and each of its changes
goes to the keys that it read and writes all of them back, so nothing brings the changes of the
other into them. Whoever writes last decides what the file holds: the keys that it found when it
opened the file, with all of its own changes (`ofContent_written`). What it saw is kept
(`last_writer_keeps`); what the other one did in the meantime is undone, even if both were told that
their changes had succeeded (`stale_holder_undoes`).

A step of a schedule keeps what `Traced` says, so every schedule does (`traced`).
-/

namespace SealedText

inductive Holder
  | first
  | second
  deriving DecidableEq, Repr

def Holder.other : Holder → Holder
  | first => second
  | second => first

theorem Holder.eq_other_of_ne {g h : Holder} (hne : g ≠ h) : g = h.other := by
  cases g <;> cases h <;> first | rfl | exact absurd rfl hne

@[simp] theorem Holder.other_other (h : Holder) : h.other.other = h := by
  cases h <;> rfl

/-- What a holder does to the file. -/
inductive Access
  | opens
  | changes (c : KeyChange)
  deriving DecidableEq, Repr

/-- The key that a change puts into the keyring. -/
def KeyChange.stored? : KeyChange → Option StoredKey
  | .add e => some e
  | .update e => some e
  | .delete _ => none

/-! ## What changes keep -/

namespace Keyring

variable {k k' : Keyring} {c : KeyChange} {entries entries' : List StoredKey} {id : String}
  {e x : StoredKey}

theorem get?_eq_some_of_first {before after : List StoredKey} (hid : e.id = id)
    (hbefore : ∀ y ∈ before, y.id ≠ id) : get? ⟨before ++ e :: after⟩ id = some e := by
  rw [get?, List.find?_append, List.find?_eq_none.2 (by simpa using hbefore)]
  simp [hid]

theorem get?_of_stored (h : c.Effect entries entries') (hc : c.stored? = some e) :
    get? ⟨entries'⟩ e.id = some e := by
  cases h with
  | add hid _ =>
    cases hc
    exact get?_eq_some_of_first rfl hid
  | update _ hfirst =>
    cases hc
    exact get?_eq_some_of_first rfl hfirst
  | delete _ => cases hc

/-- A key stays as it is under a change that does not delete it, unless the change replaces it. -/
theorem get?_of_effect (h : c.Effect entries entries') (hx : get? ⟨entries⟩ id = some x)
    (hc : c ≠ .delete id) : ∃ y, get? ⟨entries'⟩ id = some y ∧ (y = x ∨ c = .update y) := by
  cases h with
  | add _ _ =>
    refine ⟨x, ?_, .inl rfl⟩
    rw [get?] at hx ⊢
    rw [List.find?_append, hx]
    rfl
  | @update before after old e hid hfirst =>
    by_cases he : e.id = id
    · exact ⟨e, get?_eq_some_of_first he (he ▸ hfirst), .inr rfl⟩
    · refine ⟨x, ?_, .inl rfl⟩
      have hold : old.id ≠ id := hid ▸ he
      simpa [get?, List.find?_append, List.find?_cons, he, hold] using hx
  | @delete _ other _ =>
    have hne : id ≠ other := fun h => hc (h ▸ rfl)
    obtain ⟨hfound, before, after, rfl, hbefore⟩ := List.find?_eq_some_iff_append.1 hx
    have hid : x.id = id := by simpa using hfound
    have hkept : (x.id != other) = true := by simpa [hid] using hne
    refine ⟨x, ?_, .inl rfl⟩
    rw [List.filter_append, List.filter_cons, if_pos hkept]
    refine get?_eq_some_of_first hid fun y hy => ?_
    simpa using hbefore y (List.mem_of_mem_filter hy)

theorem get?_after (hx : k.get? id = some x) (hc : c ≠ .delete id) :
    ∃ y, (k.after c).get? id = some y ∧ (y = x ∨ c = .update y) := by
  rcases happly : k.apply c with err | k'
  · rw [after_of_error happly]
    exact ⟨x, hx, .inl rfl⟩
  · rw [after_of_ok happly]
    exact get?_of_effect (apply_ok_iff.1 happly) hx hc

theorem get?_afterAll : ∀ (changes : List KeyChange) {k : Keyring} {x : StoredKey},
    k.get? id = some x → .delete id ∉ changes →
      ∃ y, (k.afterAll changes).get? id = some y ∧ (y = x ∨ .update y ∈ changes)
  | [], _, x, hx, _ => ⟨x, hx, .inl rfl⟩
  | c :: changes, k, x, hx, hkept => by
    rw [List.mem_cons, not_or] at hkept
    obtain ⟨y, hy, hyx⟩ := get?_after hx (Ne.symm hkept.1)
    obtain ⟨z, hz, hzy⟩ := get?_afterAll changes hy hkept.2
    refine ⟨z, hz, ?_⟩
    rcases hzy with rfl | hzy
    · rcases hyx with rfl | rfl
      · exact .inl rfl
      · exact .inr List.mem_cons_self
    · exact .inr (List.mem_cons_of_mem _ hzy)

/-- A key that a change puts into the keyring is there in the end, if nobody deletes it. -/
theorem get?_of_stored_between {before rest : List KeyChange}
    (happly : (k.afterAll before).apply c = .ok k') (hc : c.stored? = some e)
    (hkept : .delete e.id ∉ rest) :
    ∃ x, (k.afterAll (before ++ c :: rest)).get? e.id = some x ∧ (x = e ∨ .update x ∈ rest) := by
  have hrun : k.afterAll (before ++ c :: rest) = k'.afterAll rest := by
    rw [List.append_cons, afterAll, List.foldl_append, ← afterAll, ← afterAll, afterAll_concat,
      after_of_ok happly]
  rw [hrun]
  exact get?_afterAll rest (get?_of_stored (apply_ok_iff.1 happly) hc) hkept

end Keyring

/-! ## Schedules -/

section Schedules

variable {steps : List (Holder × Access)} {h : Holder} {c : KeyChange}

/-- What a holder does, in its order. -/
def stepsOf (h : Holder) (steps : List (Holder × Access)) : List Access :=
  (steps.filter (·.1 = h)).map (·.2)

/-- Every holder opens the file once and then changes it any number of times. The steps of one
holder may stand anywhere between those of the other, and either may stop early. -/
def Interleaving (steps : List (Holder × Access)) : Prop :=
  ∀ h, ∃ changes : List KeyChange, stepsOf h steps <+: .opens :: changes.map .changes

def Access.change? : Access → Option KeyChange
  | .opens => none
  | .changes c => some c

def changesOf (h : Holder) (steps : List (Holder × Access)) : List KeyChange :=
  (stepsOf h steps).filterMap Access.change?

/-- The changes that the keys of a holder have gone through: those of the other one up to the
moment at which it opened the file, and its own. -/
def seenBy (h : Holder) (steps : List (Holder × Access)) : List KeyChange :=
  changesOf h.other (steps.takeWhile (· ≠ (h, .opens))) ++ changesOf h steps

theorem changesOf_append (h : Holder) (steps more : List (Holder × Access)) :
    changesOf h (steps ++ more) = changesOf h steps ++ changesOf h more := by
  simp [changesOf, stepsOf]

@[simp] theorem changesOf_opens (h : Holder) : changesOf h [(h, .opens)] = [] := by
  simp [changesOf, stepsOf, Access.change?]

@[simp] theorem changesOf_own (h : Holder) (c : KeyChange) :
    changesOf h [(h, .changes c)] = [c] := by
  simp [changesOf, stepsOf, Access.change?]

theorem changesOf_other {g : Holder} (hne : g ≠ h) (a : Access) : changesOf g [(h, a)] = [] := by
  simp [changesOf, stepsOf, hne.symm]

theorem mem_stepsOf {a : Access} : a ∈ stepsOf h steps ↔ (h, a) ∈ steps := by
  simp [stepsOf]

theorem mem_of_mem_changesOf (hc : c ∈ changesOf h steps) : (h, .changes c) ∈ steps := by
  obtain ⟨a, ha, hchange⟩ := List.mem_filterMap.1 hc
  cases a with
  | opens => cases hchange
  | changes d =>
    cases hchange
    exact mem_stepsOf.1 ha

theorem Interleaving.of_prefix {earlier : List (Holder × Access)} (hsteps : Interleaving steps)
    (hfront : earlier <+: steps) : Interleaving earlier := by
  intro h
  obtain ⟨changes, hchanges⟩ := hsteps h
  exact ⟨changes, ((hfront.filter _).map _).trans hchanges⟩

theorem stepsOf_concat (h : Holder) (a : Access) :
    stepsOf h (steps ++ [(h, a)]) = stepsOf h steps ++ [a] := by
  simp [stepsOf]

theorem Interleaving.not_opened (hsteps : Interleaving (steps ++ [(h, Access.opens)])) :
    (h, .opens) ∉ steps := by
  intro hmem
  obtain ⟨changes, hchanges⟩ := hsteps h
  rw [stepsOf_concat] at hchanges
  have hopens := mem_stepsOf.2 hmem
  rcases hown : stepsOf h steps with _ | ⟨a, rest⟩
  · rw [hown] at hopens
    cases hopens
  · rw [hown, List.cons_append, List.cons_prefix_cons] at hchanges
    have hlast : Access.opens ∈ changes.map Access.changes := hchanges.2.subset (by simp)
    simp at hlast

theorem Interleaving.opened (hsteps : Interleaving (steps ++ [(h, Access.changes c)])) :
    (h, .opens) ∈ steps := by
  obtain ⟨changes, hchanges⟩ := hsteps h
  rw [stepsOf_concat] at hchanges
  rcases hown : stepsOf h steps with _ | ⟨a, rest⟩
  · rw [hown, List.nil_append, List.cons_prefix_cons] at hchanges
    cases hchanges.1
  · rw [hown, List.cons_append, List.cons_prefix_cons] at hchanges
    obtain rfl : a = .opens := hchanges.1
    exact mem_stepsOf.1 (hown ▸ List.mem_cons_self)

theorem Interleaving.changesOf_eq_nil (hsteps : Interleaving steps)
    (hopened : (h, .opens) ∉ steps) : changesOf h steps = [] := by
  refine List.eq_nil_iff_forall_not_mem.2 fun c hc => hopened ?_
  obtain ⟨before, after, rfl⟩ := List.append_of_mem (mem_of_mem_changesOf hc)
  rw [List.append_cons] at hsteps
  have hbefore := (hsteps.of_prefix (List.prefix_append _ _)).opened
  exact List.mem_append_left _ hbefore

theorem takeWhile_opened (hopened : (h, .opens) ∈ steps) (more : List (Holder × Access)) :
    (steps ++ more).takeWhile (· ≠ (h, .opens)) = steps.takeWhile (· ≠ (h, .opens)) := by
  obtain ⟨before, after, rfl, hbefore⟩ := List.eq_append_cons_of_mem hopened
  have hall : ∀ x ∈ before, decide (x ≠ (h, Access.opens)) = true := fun x hx =>
    decide_eq_true fun hxh => hbefore (hxh ▸ hx)
  rw [List.append_assoc, List.takeWhile_append_of_pos hall, List.takeWhile_append_of_pos hall]
  simp

theorem seenBy_append (hopened : (h, .opens) ∈ steps) (more : List (Holder × Access)) :
    seenBy h (steps ++ more) = seenBy h steps ++ changesOf h more := by
  rw [seenBy, takeWhile_opened hopened, changesOf_append, ← List.append_assoc, seenBy]

theorem seenBy_of_opened (hopened : (h, .opens) ∈ steps) {g : Holder} (hne : h ≠ g) (a : Access) :
    seenBy h (steps ++ [(g, a)]) = seenBy h steps := by
  rw [seenBy_append hopened, changesOf_other hne, List.append_nil]

/-- Without the other one, a holder has seen its own changes only. -/
theorem seenBy_alone (hsteps : Interleaving steps) (hother : (h.other, .opens) ∉ steps) :
    seenBy h steps = changesOf h steps := by
  have hfront := List.takeWhile_prefix (fun x => decide (x ≠ (h, Access.opens))) (l := steps)
  rw [seenBy, (hsteps.of_prefix hfront).changesOf_eq_nil fun hmem => hother (hfront.subset hmem)]
  rfl

/-- Whoever opens the file sees what the other one has seen until then. -/
theorem seenBy_opens (hsteps : Interleaving (steps ++ [(h, Access.opens)])) :
    seenBy h (steps ++ [(h, Access.opens)]) = seenBy h.other steps := by
  have hnew := hsteps.not_opened
  have hbefore := hsteps.of_prefix (List.prefix_append _ _)
  have hall : ∀ x ∈ steps, decide (x ≠ (h, Access.opens)) = true := fun x hx =>
    decide_eq_true fun hxh => hnew (hxh ▸ hx)
  have hother : (h.other.other, .opens) ∉ steps := by simpa using hnew
  rw [seenBy, List.takeWhile_append_of_pos hall, changesOf_append h,
    hbefore.changesOf_eq_nil hnew, seenBy_alone hbefore hother]
  simp

/-- A change was seen by the holder that made it, and by the other one if that opened the file
later. -/
theorem seenBy_split {earlier later : List (Holder × Access)} {w : Holder}
    (hsteps : Interleaving (earlier ++ [(h, Access.changes c)] ++ later))
    (hseen : h = w ∨ (w, .opens) ∈ later) :
    ∃ rest, seenBy w (earlier ++ [(h, Access.changes c)] ++ later) = seenBy h earlier ++ c :: rest ∧
      ∀ d ∈ rest, ∃ g, (g, .changes d) ∈ later := by
  have hopened := (hsteps.of_prefix (List.prefix_append _ _)).opened
  have hopened' : (h, .opens) ∈ earlier ++ [(h, Access.changes c)] := List.mem_append_left _ hopened
  have hown (more : List (Holder × Access)) :
      seenBy h (earlier ++ [(h, Access.changes c)] ++ more) =
        seenBy h earlier ++ c :: changesOf h more := by
    rw [seenBy_append hopened', seenBy_append hopened, changesOf_own, List.append_assoc]
    rfl
  by_cases hhw : h = w
  · subst hhw
    exact ⟨changesOf h later, hown later, fun d hd => ⟨h, mem_of_mem_changesOf hd⟩⟩
  · obtain ⟨middle, rest, rfl⟩ := List.append_of_mem (hseen.resolve_left hhw)
    rw [List.append_cons middle, ← List.append_assoc, ← List.append_assoc] at hsteps ⊢
    have hopen := hsteps.of_prefix (List.prefix_append _ _)
    refine ⟨changesOf h middle ++ changesOf w rest, ?_, fun d hd => ?_⟩
    · rw [seenBy_append (by simp), seenBy_opens hopen, ← Holder.eq_other_of_ne hhw, hown]
      simp
    · rcases List.mem_append.1 hd with hd | hd
      · exact ⟨h, List.mem_append_left _ (List.mem_append_left _ (mem_of_mem_changesOf hd))⟩
      · exact ⟨w, List.mem_append_right _ (mem_of_mem_changesOf hd)⟩

end Schedules

/-! ## The file -/

/-- A key file with the keys that each holder has of it. -/
structure SharedKeyFile where
  path : String
  content : Option ByteArray
  held : Holder → Option KeyStore := fun _ => none

namespace SharedKeyFile

def put (f : SharedKeyFile) (h : Holder) (v : OpenKeyFile) : SharedKeyFile where
  path := f.path
  content := v.content
  held := fun g => if g = h then some v.store else f.held g

def after (f : SharedKeyFile) (h : Holder) : Access → SharedKeyFile
  | .opens =>
    match KeyStore.ofContent f.path f.content with
    | .ok store => f.put h ⟨store, f.content⟩
    | .error _ => f
  | .changes c =>
    match f.held h with
    | some store => f.put h (OpenKeyFile.after ⟨store, f.content⟩ c)
    | none => f

def afterAll (f : SharedKeyFile) (steps : List (Holder × Access)) : SharedKeyFile :=
  steps.foldl (fun f step => f.after step.1 step.2) f

/-- Whether a holder is told that its change succeeded. -/
def accepts (f : SharedKeyFile) (h : Holder) : Access → Bool
  | .opens => false
  | .changes c =>
    match f.held h with
    | some store => (store.apply c).isOk
    | none => false

/-- Who was the last one to be told so. -/
def lastWriter (f : SharedKeyFile) : List (Holder × Access) → Option Holder
  | [] => none
  | (h, a) :: rest =>
    ((f.after h a).lastWriter rest).or (if f.accepts h a then some h else none)

/-- The file as a holder sees it that has these keys of it. -/
def view (f : SharedKeyFile) (keyring : Keyring) : OpenKeyFile := ⟨⟨f.path, keyring⟩, f.content⟩

/-- The file opens with these keys. -/
def Holds (f : SharedKeyFile) (keyring : Keyring) : Prop :=
  KeyStore.ofContent f.path f.content = .ok ⟨f.path, keyring⟩

variable {f : SharedKeyFile} {h : Holder} {c : KeyChange} {k k' : Keyring}

theorem afterAll_concat (f : SharedKeyFile) (steps : List (Holder × Access)) (h : Holder)
    (a : Access) : f.afterAll (steps ++ [(h, a)]) = (f.afterAll steps).after h a := by
  rw [afterAll, List.foldl_concat, ← afterAll]

theorem lastWriter_concat (h : Holder) (a : Access) : ∀ (steps : List (Holder × Access))
    (f : SharedKeyFile), f.lastWriter (steps ++ [(h, a)]) =
      if (f.afterAll steps).accepts h a then some h else f.lastWriter steps
  | [], f => rfl
  | (g, b) :: steps, f => by
    have hrest : f.afterAll ((g, b) :: steps) = (f.after g b).afterAll steps := rfl
    rw [List.cons_append, lastWriter, lastWriter_concat h a steps (f.after g b), hrest]
    by_cases haccepts : ((f.after g b).afterAll steps).accepts h a = true
    · rw [if_pos haccepts, if_pos haccepts, Option.some_or]
    · rw [if_neg haccepts, if_neg haccepts, lastWriter]

theorem after_opens (hf : f.Holds k) : f.after h .opens = f.put h (f.view k) := by
  rw [after, hf]
  rfl

theorem after_changes (hheld : f.held h = some ⟨f.path, k⟩) :
    f.after h (.changes c) = f.put h ((f.view k).after c) := by
  rw [after, hheld]
  rfl

theorem accepts_changes (hheld : f.held h = some ⟨f.path, k⟩) :
    f.accepts h (.changes c) = (k.apply c).isOk := by
  unfold accepts
  rw [hheld]
  simp only [KeyStore.apply]
  cases k.apply c <;> rfl

/-- A change that succeeds is written with all the keys that its holder has. -/
theorem holds_changed (hheld : f.held h = some ⟨f.path, k⟩) (happly : k.apply c = .ok k') :
    (f.after h (.changes c)).Holds k' := by
  have hview : (f.view k).store.keyring.apply c = .ok k' := happly
  rw [after_changes hheld, OpenKeyFile.after_of_ok hview]
  exact KeyStore.ofContent_content ⟨f.path, k'⟩

@[simp] theorem path_put (f : SharedKeyFile) (h : Holder) (v : OpenKeyFile) :
    (f.put h v).path = f.path := rfl

@[simp] theorem content_put (f : SharedKeyFile) (h : Holder) (v : OpenKeyFile) :
    (f.put h v).content = v.content := rfl

theorem held_put_self (f : SharedKeyFile) (h : Holder) (v : OpenKeyFile) :
    (f.put h v).held h = some v.store := if_pos rfl

theorem held_put_of_ne (f : SharedKeyFile) {g h : Holder} (hne : g ≠ h) (v : OpenKeyFile) :
    (f.put h v).held g = f.held g := if_neg hne

/-- What a schedule makes of a file with the given keys, and of what its holders have of it. The
file is what a holder has of it if that one wrote last, or if the other one has not opened it. -/
structure Traced (start : SharedKeyFile) (initial : Keyring) (steps : List (Holder × Access)) :
    Prop where
  path : (start.afterAll steps).path = start.path
  held : ∀ h, (h, .opens) ∈ steps →
    (start.afterAll steps).held h = some ⟨start.path, initial.afterAll (seenBy h steps)⟩
  current : ∀ h, start.lastWriter steps = some h ∨ (h.other, .opens) ∉ steps →
    (start.afterAll steps).Holds (initial.afterAll (seenBy h steps))
  writer : ∀ h, start.lastWriter steps = some h → (h, .opens) ∈ steps
  unwritten : start.lastWriter steps = none → (start.afterAll steps).content = start.content

variable {start : SharedKeyFile} {initial : Keyring} {steps : List (Holder × Access)}

theorem Holds.of_eq {g : SharedKeyFile} (hf : f.Holds k) (hpath : g.path = f.path)
    (hcontent : g.content = f.content) : g.Holds k := by
  unfold Holds
  rw [hpath, hcontent]
  exact hf

theorem Traced.nil (hstart : start.Holds initial) : Traced start initial [] where
  path := rfl
  held := by simp
  current _ _ := hstart
  writer := by simp [lastWriter]
  unwritten _ := rfl

section Step

variable {a : Access} {v : OpenKeyFile}

theorem Traced.held_step (ht : Traced start initial steps)
    (hput : (start.afterAll steps).after h a = (start.afterAll steps).put h v)
    (hv : v.store = ⟨start.path, initial.afterAll (seenBy h (steps ++ [(h, a)]))⟩) (g : Holder)
    (hg : (g, .opens) ∈ steps ++ [(h, a)]) :
    (start.afterAll (steps ++ [(h, a)])).held g =
      some ⟨start.path, initial.afterAll (seenBy g (steps ++ [(h, a)]))⟩ := by
  rw [afterAll_concat, hput]
  by_cases hgh : g = h
  · rw [hgh, held_put_self, hv]
  · have hopened : (g, .opens) ∈ steps := by simpa [hgh] using hg
    rw [held_put_of_ne _ hgh, ht.held g hopened, seenBy_of_opened hopened hgh]

/-- A step that leaves the file as it is: its holder opens it, or a change fails. -/
theorem Traced.quiet (ht : Traced start initial steps) (hopened : (h, .opens) ∈ steps ++ [(h, a)])
    (hput : (start.afterAll steps).after h a = (start.afterAll steps).put h v)
    (hv : v.store = ⟨start.path, initial.afterAll (seenBy h (steps ++ [(h, a)]))⟩)
    (hcontent : v.content = (start.afterAll steps).content)
    (hrefused : ¬ (start.afterAll steps).accepts h a = true)
    (hcurrent : start.lastWriter steps = some h ∨ (h.other, .opens) ∉ steps →
      (start.afterAll steps).Holds (initial.afterAll (seenBy h (steps ++ [(h, a)])))) :
    Traced start initial (steps ++ [(h, a)]) := by
  have hlast : start.lastWriter (steps ++ [(h, a)]) = start.lastWriter steps := by
    rw [lastWriter_concat, if_neg hrefused]
  have hpath' : (start.afterAll (steps ++ [(h, a)])).path = (start.afterAll steps).path := by
    rw [afterAll_concat, hput, path_put]
  have hcontent' : (start.afterAll (steps ++ [(h, a)])).content =
      (start.afterAll steps).content := by
    rw [afterAll_concat, hput, content_put, hcontent]
  refine ⟨hpath'.trans ht.path, ht.held_step hput hv, fun g hg => ?_, fun g hg => ?_, ?_⟩
  · by_cases hgh : g = h
    · subst hgh
      refine (hcurrent (hg.imp hlast.symm.trans ?_)).of_eq hpath' hcontent'
      exact fun hother hmem => hother (List.mem_append_left _ hmem)
    · have hwriter : start.lastWriter steps = some g := by
        rcases hg with hg | hother
        · exact hlast.symm.trans hg
        · rw [Holder.eq_other_of_ne hgh, Holder.other_other] at hother
          exact absurd hopened hother
      rw [seenBy_of_opened (ht.writer g hwriter) hgh]
      exact (ht.current g (.inl hwriter)).of_eq hpath' hcontent'
  · exact List.mem_append_left _ (ht.writer g (hlast.symm.trans hg))
  · rw [hlast]
    exact fun hnone => hcontent'.trans (ht.unwritten hnone)

/-- A step that writes the file: a change succeeds. -/
theorem Traced.writes (ht : Traced start initial steps) (hopened : (h, .opens) ∈ steps ++ [(h, a)])
    (hput : (start.afterAll steps).after h a = (start.afterAll steps).put h v)
    (hv : v.store = ⟨start.path, initial.afterAll (seenBy h (steps ++ [(h, a)]))⟩)
    (haccepts : (start.afterAll steps).accepts h a = true)
    (hholds : (start.afterAll (steps ++ [(h, a)])).Holds
      (initial.afterAll (seenBy h (steps ++ [(h, a)])))) :
    Traced start initial (steps ++ [(h, a)]) := by
  have hlast : start.lastWriter (steps ++ [(h, a)]) = some h := by
    rw [lastWriter_concat, if_pos haccepts]
  refine ⟨?_, ht.held_step hput hv, fun g hg => ?_, fun g hg => ?_, fun hnone => ?_⟩
  · rw [afterAll_concat, hput, path_put, ht.path]
  · obtain rfl : g = h := by
      by_contra hgh
      obtain rfl := Holder.eq_other_of_ne hgh
      rw [hlast, Holder.other_other] at hg
      exact hg.elim (fun hsame => hgh (Option.some.inj hsame).symm) fun hother => hother hopened
    exact hholds
  · rw [hlast] at hg
    cases hg
    exact hopened
  · rw [hlast] at hnone
    cases hnone

end Step

theorem Traced.opens (ht : Traced start initial steps)
    (hsteps : Interleaving (steps ++ [(h, Access.opens)])) :
    Traced start initial (steps ++ [(h, Access.opens)]) := by
  have hother : (h.other.other, .opens) ∉ steps := by simpa using hsteps.not_opened
  have hholds := ht.current h.other (.inr hother)
  rw [← seenBy_opens hsteps] at hholds
  refine ht.quiet (by simp) (after_opens hholds) ?_ rfl (by simp [accepts]) fun _ => hholds
  rw [view, ht.path]

theorem Traced.changes (ht : Traced start initial steps)
    (hsteps : Interleaving (steps ++ [(h, Access.changes c)])) :
    Traced start initial (steps ++ [(h, Access.changes c)]) := by
  have hopened := hsteps.opened
  have hmem : (h, .opens) ∈ steps ++ [(h, Access.changes c)] := List.mem_append_left _ hopened
  have hheld := ht.held h hopened
  rw [← ht.path] at hheld
  have hput := after_changes (c := c) hheld
  have hseen : initial.afterAll (seenBy h (steps ++ [(h, Access.changes c)])) =
      (initial.afterAll (seenBy h steps)).after c := by
    rw [seenBy_append hopened, changesOf_own, Keyring.afterAll_concat]
  have hstore := ((start.afterAll steps).view (initial.afterAll (seenBy h steps))).store_after c
  simp only [view, ht.path, ← hseen] at hstore hput
  rcases happly : (initial.afterAll (seenBy h steps)).apply c with err | k'
  · refine ht.quiet hmem hput hstore ?_ ?_ fun hcurrent => ?_
    · rw [OpenKeyFile.after_of_error happly]
    · rw [accepts_changes hheld, happly]
      exact Bool.false_ne_true
    · rw [hseen, Keyring.after_of_error happly]
      exact ht.current h hcurrent
  · have hholds := holds_changed hheld happly
    rw [← Keyring.after_of_ok happly, ← hseen, ← afterAll_concat] at hholds
    refine ht.writes hmem hput hstore ?_ hholds
    rw [accepts_changes hheld, happly]
    rfl

theorem traced (hstart : start.Holds initial) {steps : List (Holder × Access)}
    (hsteps : Interleaving steps) : Traced start initial steps := by
  induction steps using List.reverseRecOn with
  | nil => exact .nil hstart
  | append_singleton earlier step ih =>
    have ht := ih (hsteps.of_prefix (List.prefix_append _ _))
    rcases step with ⟨h, _ | c⟩
    · exact ht.opens hsteps
    · exact ht.changes hsteps

theorem ofContent_written (hstart : start.Holds initial) (hsteps : Interleaving steps)
    (hlast : start.lastWriter steps = some h) :
    KeyStore.ofContent start.path (start.afterAll steps).content =
      .ok ⟨start.path, initial.afterAll (seenBy h steps)⟩ := by
  have ht := traced hstart hsteps
  rw [← ht.path]
  exact ht.current h (.inl hlast)

theorem accepts_afterAll (hstart : start.Holds initial)
    (hsteps : Interleaving (steps ++ [(h, Access.changes c)])) :
    (start.afterAll steps).accepts h (.changes c) =
      ((initial.afterAll (seenBy h steps)).apply c).isOk := by
  have ht := traced hstart (hsteps.of_prefix (List.prefix_append _ _))
  have hheld := ht.held h hsteps.opened
  rw [← ht.path] at hheld
  exact accepts_changes hheld

end SharedKeyFile

/-- However the steps of two holders interleave, a file that nobody could change is as it was, and
otherwise it opens as the keys of the holder that wrote last. What that holder saw is in it: a key
that was added or replaced before it opened the file, or by itself, is there unless it was deleted,
and a mark of revocation stays unless an update clears it. -/
theorem last_writer_keeps (f : SharedKeyFile) (initial : Keyring) (hf : f.Holds initial)
    (steps : List (Holder × Access)) (hsteps : Interleaving steps) :
    (f.lastWriter steps = none → (f.afterAll steps).content = f.content) ∧
      ∀ w, f.lastWriter steps = some w →
        KeyStore.ofContent f.path (f.afterAll steps).content =
            .ok ⟨f.path, initial.afterAll (seenBy w steps)⟩ ∧
          ∀ (earlier later : List (Holder × Access)) (h : Holder) (c : KeyChange) (e : StoredKey),
            steps = earlier ++ [(h, Access.changes c)] ++ later →
            (f.afterAll earlier).accepts h (.changes c) = true →
            (h = w ∨ (w, .opens) ∈ later) → c.stored? = some e →
            (∀ g, (g, .changes (.delete e.id)) ∉ later) →
            ∃ x, (initial.afterAll (seenBy w steps)).get? e.id = some x ∧
              (x = e ∨ ∃ g, (g, .changes (.update x)) ∈ later) ∧
              (e.revoked = true →
                (∀ g y, (g, .changes (.update y)) ∈ later → y.id = e.id → y.revoked = true) →
                x.revoked = true) := by
  refine ⟨(SharedKeyFile.traced hf hsteps).unwritten, fun w hw => ?_⟩
  refine ⟨SharedKeyFile.ofContent_written hf hsteps hw, ?_⟩
  rintro earlier later h c e rfl haccepts hseen hc hkept
  have hearlier := hsteps.of_prefix (List.prefix_append _ _)
  rw [SharedKeyFile.accepts_afterAll hf hearlier] at haccepts
  rcases happly : (initial.afterAll (seenBy h earlier)).apply c with err | k'
  · rw [happly] at haccepts
    cases haccepts
  obtain ⟨rest, hrest, hlater⟩ := seenBy_split hsteps hseen
  obtain ⟨x, hx, horigin⟩ := Keyring.get?_of_stored_between happly hc fun hmem => by
    obtain ⟨g, hg⟩ := hlater _ hmem
    exact hkept g hg
  have horigin : x = e ∨ ∃ g, (g, .changes (.update x)) ∈ later := horigin.imp_right (hlater _)
  rw [hrest]
  refine ⟨x, hx, horigin, fun hrevoked hmarked => ?_⟩
  rcases horigin with rfl | ⟨g, hg⟩
  · exact hrevoked
  · exact hmarked g x hg (Keyring.mem_of_get? hx).2

section Alice

def aliceKey : StoredKey := { id := "1", name := "alice", material := [1] }
def bobKey : StoredKey := { id := "2", name := "bob", material := [2] }
def carolKey : StoredKey := { id := "3", name := "carol", material := [3] }

/-- A file with the key of alice, which nobody has open. -/
def aliceFile : SharedKeyFile where
  path := "keys.json"
  content := some (KeyFile.render ⟨[aliceKey]⟩).toUTF8

theorem holds_aliceFile : aliceFile.Holds ⟨[aliceKey]⟩ :=
  KeyStore.ofContent_content ⟨"keys.json", ⟨[aliceKey]⟩⟩

/-- What the second holder does: it adds carol and marks alice. -/
def addsCarol : Access := .changes (.add carolKey)
def marksAlice : Access := .changes (.update { aliceKey with revoked := true })

/-- The first holder adds bob. -/
def addsBob : Access := .changes (.add bobKey)

/-- The first holder opens the file when the second one is done. Then everything is there. -/
theorem late_opener_keeps :
    let before : List (Holder × Access) :=
      [(.second, .opens), (.second, addsCarol), (.second, marksAlice), (.first, .opens)]
    let steps := before ++ [(Holder.first, addsBob)]
    aliceFile.Holds ⟨[aliceKey]⟩ ∧ Interleaving steps ∧ aliceFile.lastWriter steps = some .first ∧
      KeyStore.ofContent aliceFile.path (aliceFile.afterAll steps).content =
        .ok ⟨aliceFile.path, ⟨[{ aliceKey with revoked := true }, carolKey, bobKey]⟩⟩ := by
  intro before steps
  have hsteps : Interleaving steps := by
    intro h
    cases h
    · exact ⟨[.add bobKey], by decide⟩
    · exact ⟨[.add carolKey, .update { aliceKey with revoked := true }], by decide⟩
  have hbob : (aliceFile.afterAll before).accepts .first addsBob = true := by
    refine (SharedKeyFile.accepts_afterAll holds_aliceFile hsteps).trans ?_
    decide
  have hlast : aliceFile.lastWriter steps = some .first := by
    rw [SharedKeyFile.lastWriter_concat, if_pos hbob]
  have hkeys : Keyring.afterAll ⟨[aliceKey]⟩ (seenBy .first steps) =
      ⟨[{ aliceKey with revoked := true }, carolKey, bobKey]⟩ := by
    decide
  obtain ⟨-, hkept⟩ := last_writer_keeps aliceFile _ holds_aliceFile steps hsteps
  obtain ⟨hopen, -⟩ := hkept .first hlast
  rw [hkeys] at hopen
  exact ⟨holds_aliceFile, hsteps, hlast, hopen⟩

/-- The first holder has the file open before that, so its keys are without carol and without the
mark on alice. When it adds bob they are gone, though all three changes succeed. -/
theorem stale_holder_undoes :
    let opened : List (Holder × Access) := [(.first, .opens), (.second, .opens)]
    let added := opened ++ [(Holder.second, addsCarol)]
    let marked := added ++ [(Holder.second, marksAlice)]
    let steps := marked ++ [(Holder.first, addsBob)]
    Interleaving steps ∧ (aliceFile.afterAll opened).accepts .second addsCarol = true ∧
      (aliceFile.afterAll added).accepts .second marksAlice = true ∧
      (aliceFile.afterAll marked).accepts .first addsBob = true ∧
      KeyStore.ofContent aliceFile.path (aliceFile.afterAll steps).content =
        .ok ⟨aliceFile.path, ⟨[aliceKey, bobKey]⟩⟩ := by
  intro opened added marked steps
  have hsteps : Interleaving steps := by
    intro h
    cases h
    · exact ⟨[.add bobKey], by decide⟩
    · exact ⟨[.add carolKey, .update { aliceKey with revoked := true }], by decide⟩
  have hmarked : Interleaving marked := hsteps.of_prefix (List.prefix_append _ _)
  have hadded : Interleaving added := hmarked.of_prefix (List.prefix_append _ _)
  have hbob : (aliceFile.afterAll marked).accepts .first addsBob = true := by
    refine (SharedKeyFile.accepts_afterAll holds_aliceFile hsteps).trans ?_
    decide
  have hlast : aliceFile.lastWriter steps = some .first := by
    rw [SharedKeyFile.lastWriter_concat, if_pos hbob]
  have hkeys : Keyring.afterAll ⟨[aliceKey]⟩ (seenBy .first steps) = ⟨[aliceKey, bobKey]⟩ := by
    decide
  have hopen := SharedKeyFile.ofContent_written holds_aliceFile hsteps hlast
  rw [hkeys] at hopen
  refine ⟨hsteps, ?_, ?_, hbob, hopen⟩
  · refine (SharedKeyFile.accepts_afterAll holds_aliceFile hadded).trans ?_
    decide
  · refine (SharedKeyFile.accepts_afterAll holds_aliceFile hmarked).trans ?_
    decide

end Alice

end SealedText
