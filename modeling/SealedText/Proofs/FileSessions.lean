import SealedText.Command.Session
import SealedText.Proofs.CommandRuns
import SealedText.Proofs.KeyFileRoundTrip

/-!
# Sessions on files

A session reads its settings file, runs one command and writes at most the key file that the
settings name. On files in memory it is the run of that command (`perform_eq`, `run_cases`): what
the command does not ask for has no influence on it, and the reply says whether it succeeded. So a
key file goes through sessions as it goes through their commands (`ofContent_afterAll`).
-/

namespace SealedText

/-- The files of a machine. -/
abbrev Files := String → Option ByteArray

/-- A command line with what its session finds, apart from the files. -/
structure SessionCall where
  words : List String
  environment : Environment := {}
  input : ByteArray := .empty
  fresh : Fresh

namespace SessionCall

def host (c : SessionCall) : Host (StateM Files) where
  environment := c.environment
  contentAt path := do return (← get) path
  save path text := modify fun files => Function.update files path (some text.toUTF8)
  readInput := return c.input
  fresh := return c.fresh

/-- What the program replies, and the files afterwards. -/
def run (c : SessionCall) (files : Files) : Reply × Files :=
  (Command.session c.host c.words).run files

end SessionCall

namespace Command

variable {s : Situation} {fresh : Fresh} {stored : Except Failure KeyStore} {outcome : Outcome}

/-! ## What a command does not ask for -/

theorem run_input {command : Command} (h : command.readsInput = false) (input : ByteArray) :
    command.run { s with input } fresh stored = command.run s fresh stored := by
  cases command with
  | encrypt text key password base61 bare =>
    rcases text with _ | text
    · cases h
    · rfl
  | decrypt delivered password =>
    rcases delivered with _ | delivered
    · cases h
    · rfl
  | importKey name keyText protect =>
    rcases keyText with _ | keyText
    · cases h
    · rfl
  | _ => rfl

theorem run_stored {command : Command} (h : command.opensStore = false)
    (other : Except Failure KeyStore) :
    command.run s fresh stored = command.run s fresh other := by
  cases command with
  | encrypt text key password base61 bare =>
    obtain rfl : password = true := by simpa [opensStore] using h
    rfl
  | decrypt delivered password =>
    obtain rfl : password = true := by simpa [opensStore] using h
    rfl
  | showSettings => rfl
  | _ => cases h

/-! ## What a command writes -/

theorem changed_of_unopened {f : Failure} {command : Command}
    (h : command.run s fresh (.error f) = .ok outcome) : outcome.changed = none := by
  cases command with
  | encrypt text key password base61 bare =>
    unfold run runEncrypt at h
    obtain ⟨text, -, h⟩ := bind_eq_ok.1 h
    simp only [] at h
    split_ifs at h
    · obtain ⟨key, -, h⟩ := bind_eq_ok.1 h
      obtain ⟨token, -, h⟩ := bind_eq_ok.1 h
      cases h
      rfl
    · cases h
  | decrypt delivered password =>
    unfold run runDecrypt at h
    obtain ⟨text, -, h⟩ := bind_eq_ok.1 h
    simp only [] at h
    split_ifs at h
    · obtain ⟨key, -, h⟩ := bind_eq_ok.1 h
      obtain ⟨output, -, h⟩ := bind_eq_ok.1 h
      cases h
      rfl
    · cases h
  | importKey name keyText protect =>
    unfold run runImport at h
    obtain ⟨text, -, h⟩ := bind_eq_ok.1 h
    obtain ⟨secret, -, h⟩ := bind_eq_ok.1 h
    cases h
  | showSettings =>
    cases h
    rfl
  | _ => cases h

end Command

namespace CommandCall

/-- The key file of a command, as its settings name it. -/
def storePath (c : CommandCall) : String :=
  c.situation.settings.storePath c.situation.environment.home

/-- What a command finds when it opens its key file. -/
def opened (c : CommandCall) (files : Files) : Except Failure KeyStore :=
  attempt .store [.openingStore c.storePath] (KeyStore.ofContent c.storePath (files c.storePath))

/-- What a command does with the files that it finds. -/
def result (c : CommandCall) (files : Files) : Except Failure Outcome :=
  c.command.run c.situation c.fresh (c.opened files)

end CommandCall

/-- The files with a key file written. -/
def Files.written (files : Files) : Option KeyStore → Files
  | none => files
  | some store => Function.update files store.path (some store.content.toUTF8)

namespace SessionCall

variable {c : SessionCall} {files : Files} {call : CommandCall}

/-! ## What a session does -/

/-- The command that the words ask for, and the settings file. -/
def asked (c : SessionCall) : Except Command.Stop (Command × String) := do
  let i ← Command.Invocation.ofWords c.words
  return (i.command, ← i.settingsFile c.environment)

/-- The command that a session runs, unless the words make none or the settings cannot be read. -/
def call? (c : SessionCall) (files : Files) : Option CommandCall :=
  match c.asked with
  | .error _ => none
  | .ok (command, settingsPath) =>
    match Settings.ofContent settingsPath (files settingsPath) with
    | .error _ => none
    | .ok settings =>
      let settingsFound := (files settingsPath).isSome
      some ⟨⟨settings, settingsPath, settingsFound, c.environment, c.input⟩, c.fresh, command⟩

/-- How a session ends, and what it leaves behind. -/
def finished (files : Files) : Except Failure Outcome → Reply × Files
  | .error f => (.failed f, files)
  | .ok outcome => (.done outcome.output, files.written outcome.changed)

theorem finish_run (c : SessionCall) (files : Files) (result : Except Failure Outcome) :
    StateT.run (match result with
      | .error f => pure (Reply.failed f)
      | .ok outcome => do
        if let some store := outcome.changed then c.host.save store.path store.content
        return .done outcome.output : StateM Files Reply) files = finished files result := by
  rcases result with f | ⟨output, _ | store⟩ <;> rfl

theorem perform_run (c : SessionCall) (command : Command) (s : Situation) (files : Files) :
    (Command.perform c.host command s).run files =
      finished files (command.run
        { s with input := if command.readsInput then c.input else .empty } c.fresh
        (attempt .store [.openingStore (s.settings.storePath c.environment.home)]
          (KeyStore.ofContent (s.settings.storePath c.environment.home)
            (if command.opensStore then files (s.settings.storePath c.environment.home)
              else none)))) := by
  rw [← finish_run c]
  unfold Command.perform
  cases command.readsInput <;> cases command.opensStore <;> rfl

/-- What a command does not ask for makes no difference to its session. -/
theorem perform_eq (c : SessionCall) (command : Command) (s : Situation) (files : Files)
    (henvironment : s.environment = c.environment) :
    (Command.perform c.host command s).run files =
      finished files (command.run { s with input := c.input } c.fresh
        (CommandCall.opened ⟨s, c.fresh, command⟩ files)) := by
  have hinput (stored : Except Failure KeyStore) : command.run
      { s with input := if command.readsInput then c.input else .empty } c.fresh stored =
        command.run { s with input := c.input } c.fresh stored := by
    by_cases hreads : command.readsInput = true
    · rw [if_pos hreads]
    · have hreads : command.readsInput = false := by simpa using hreads
      rw [Command.run_input hreads]
      exact (Command.run_input hreads c.input).symm
  rw [perform_run, hinput, ← henvironment]
  by_cases hopens : command.opensStore = true
  · rw [if_pos hopens]
    rfl
  · have hopens : command.opensStore = false := by simpa using hopens
    rw [Command.run_stored hopens]

theorem run_eq (c : SessionCall) (files : Files) :
    c.run files = match c.asked with
      | .error stop => (.stopped stop, files)
      | .ok (command, settingsPath) =>
        match attempt .settings [.loadingSettings settingsPath]
          (Settings.ofContent settingsPath (files settingsPath)) with
        | .error f => (.failed f, files)
        | .ok settings =>
          let settingsFound := (files settingsPath).isSome
          (Command.perform c.host command
            ⟨settings, settingsPath, settingsFound, c.environment, .empty⟩).run files := by
  unfold run Command.session
  change StateT.run (match c.asked with
    | .error stop => _
    | .ok (command, settingsPath) => _) files = _
  rcases c.asked with stop | ⟨command, settingsPath⟩
  · rfl
  · change StateT.run (match attempt .settings [.loadingSettings settingsPath]
      (Settings.ofContent settingsPath (files settingsPath)) with
      | .error f => _
      | .ok settings => _) files = _
    simp only []
    rcases Settings.ofContent settingsPath (files settingsPath) with e | settings <;> rfl

/-- A session runs its command on its key file. Without a command to run, or without settings to run
it with, it fails and leaves the files as they are. -/
theorem run_cases (c : SessionCall) (files : Files) :
    (∃ call, c.call? files = some call ∧ c.run files = finished files (call.result files)) ∨
      c.call? files = none ∧ (c.run files).2 = files ∧
        ∀ output, (c.run files).1 ≠ .done output := by
  rw [run_eq]
  unfold call?
  rcases c.asked with stop | ⟨command, settingsPath⟩
  · refine .inr ⟨rfl, rfl, fun output h => ?_⟩
    cases h
  · simp only []
    rcases Settings.ofContent settingsPath (files settingsPath) with e | settings
    · refine .inr ⟨rfl, rfl, fun output h => ?_⟩
      cases h
    · exact .inl ⟨_, rfl, perform_eq c command _ files rfl⟩

end SessionCall

/-! ## The files -/

theorem KeyStore.path_of_ofContent {path : String} {content : Option ByteArray} {store : KeyStore}
    (h : ofContent path content = .ok store) : store.path = path := by
  unfold ofContent at h
  split at h
  · cases h
    rfl
  · split at h
    · cases h
    · split at h
      · cases h
      · cases h
        rfl

theorem CommandCall.opened_ok_iff {c : CommandCall} {files : Files} {store : KeyStore} :
    c.opened files = .ok store ↔
      KeyStore.ofContent c.storePath (files c.storePath) = .ok store :=
  attempt_ok_iff

/-- What a command writes is the key file that it opened. -/
theorem CommandCall.path_changed {c : CommandCall} {files : Files} {outcome : Outcome}
    (h : c.result files = .ok outcome) {after : KeyStore} (hafter : outcome.changed = some after) :
    after.path = c.storePath := by
  unfold result at h
  rcases hopened : c.opened files with f | store
  · rw [hopened] at h
    rw [Command.changed_of_unopened h] at hafter
    cases hafter
  · rw [hopened] at h
    rcases Command.changed_apply h with hnone | ⟨change, found, -, happly, hsome⟩
    · rw [hnone] at hafter
      cases hafter
    · rw [hsome] at hafter
      cases hafter
      have hpath : store.path = c.storePath :=
        KeyStore.path_of_ofContent (opened_ok_iff.1 hopened)
      obtain ⟨keyring, -, rfl⟩ := KeyStore.apply_ok happly
      exact hpath

namespace Files

def after (files : Files) (c : SessionCall) : Files := (c.run files).2

def afterAll (files : Files) (sessions : List SessionCall) : Files := sessions.foldl after files

variable {files : Files} {c : SessionCall} {call : CommandCall} {path : String} {store : KeyStore}

theorem written_of_ne {changed : Option KeyStore} (h : ∀ s, changed = some s → s.path ≠ path) :
    files.written changed path = files path := by
  rcases changed with _ | s
  · rfl
  · exact Function.update_of_ne (h s rfl).symm _ _

theorem run_of_call (h : c.call? files = some call) :
    c.run files = SessionCall.finished files (call.result files) := by
  rcases c.run_cases files with ⟨found, hfound, hrun⟩ | ⟨hnone, -, -⟩
  · rw [h] at hfound
    cases hfound
    exact hrun
  · rw [h] at hnone
    cases hnone

/-- A session that is not done leaves the files as they are. -/
theorem after_of_not_done (h : ∀ output, (c.run files).1 ≠ .done output) :
    files.after c = files := by
  rcases c.run_cases files with ⟨call, -, hrun⟩ | ⟨-, hsame, -⟩
  · rcases hresult : call.result files with f | outcome
    · rw [after, hrun, hresult]
      rfl
    · rw [hrun, hresult] at h
      exact absurd rfl (h outcome.output)
  · exact hsame

/-- One that is has run a command. -/
theorem exists_call {output : String} (h : (c.run files).1 = .done output) :
    ∃ call outcome, c.call? files = some call ∧ call.result files = .ok outcome ∧
      outcome.output = output ∧ files.after c = files.written outcome.changed := by
  rcases c.run_cases files with ⟨call, hcall, hrun⟩ | ⟨-, -, hnot⟩
  · rcases hresult : call.result files with f | outcome
    · rw [hrun, hresult] at h
      cases h
    · refine ⟨call, outcome, hcall, hresult, ?_, ?_⟩
      · rw [hrun, hresult] at h
        cases h
        rfl
      · rw [after, hrun, hresult]
        rfl
  · exact absurd h (hnot output)

/-- A session writes no file but the key file that its settings name. -/
theorem after_of_ne (hpath : ∀ call, c.call? files = some call → call.storePath ≠ path) :
    files.after c path = files path := by
  by_cases hdone : ∃ output, (c.run files).1 = .done output
  · obtain ⟨output, hdone⟩ := hdone
    obtain ⟨call, outcome, hcall, hresult, -, hafter⟩ := exists_call hdone
    rw [hafter]
    refine written_of_ne fun s hs => ?_
    rw [CommandCall.path_changed hresult hs]
    exact hpath call hcall
  · rw [after_of_not_done fun output h => hdone ⟨output, h⟩]

theorem ofContent_after (hstore : KeyStore.ofContent path (files path) = .ok store)
    (hcall : c.call? files = some call) (hpath : call.storePath = path) :
    KeyStore.ofContent path (files.after c path) = .ok (store.after call) := by
  have hopened : call.opened files = .ok store := by
    rw [CommandCall.opened_ok_iff, hpath]
    exact hstore
  have hrun := run_of_call hcall
  rw [after, hrun, KeyStore.after]
  rcases hresult : call.result files with f | outcome
  · rw [CommandCall.result, hopened] at hresult
    rw [hresult]
    exact hstore
  · have hwritten (s : KeyStore) (hs : outcome.changed = some s) :=
      CommandCall.path_changed hresult hs
    rw [CommandCall.result, hopened] at hresult
    rw [hresult]
    rcases outcome with ⟨output, _ | s⟩
    · exact hstore
    · have hs : s.path = path := (hwritten s rfl).trans hpath
      change KeyStore.ofContent path (Function.update files s.path _ path) = .ok s
      rw [hs, Function.update_self, ← hs]
      exact KeyStore.ofContent_content s

/-- A key file goes through sessions as it goes through their commands. -/
theorem ofContent_afterAll (path : String) : ∀ (sessions : List SessionCall) {files : Files}
    {store : KeyStore}, KeyStore.ofContent path (files path) = .ok store →
      ∃ calls, KeyStore.ofContent path (files.afterAll sessions path) = .ok (store.afterAll calls)
  | [], _, _, h => ⟨[], h⟩
  | c :: sessions, files, store, h => by
    by_cases hcall : ∃ call, c.call? files = some call ∧ call.storePath = path
    · obtain ⟨call, hcall, hpath⟩ := hcall
      obtain ⟨calls, hcalls⟩ := ofContent_afterAll path sessions (ofContent_after h hcall hpath)
      exact ⟨call :: calls, hcalls⟩
    · have hsame := after_of_ne fun call hc hpath => hcall ⟨call, hc, hpath⟩
      rw [← hsame] at h
      exact ofContent_afterAll path sessions h

end Files

end SealedText
