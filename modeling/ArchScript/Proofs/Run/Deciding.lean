/-
  One configuration decides a run.

  Of the places where settings are looked for, the first that is seen decides, and what it comes to
  is told case by case (`Refusals.Decides`): a named configuration that is missing, a file that
  cannot be read and a text that describes no settings are failures, and none of them leads on to
  another place. From there a run has only its input to read and its output to write (`Run.under`),
  so two systems that agree on the deciding place, the input and the output are not told apart by a
  run, whatever else differs between them (`run_decided`).
-/
import ArchScript.Proofs.Compile
import ArchScript.Proofs.Files.Writing
import ArchScript.Proofs.Run.Guarded

namespace ArchScript

/-! ## The place that decides -/

namespace Refusals

variable (r : Refusals) (reader : SettingsReader) (d : Disk)

/-- The place that decides the settings of a run: the first that is seen. -/
def decidingPlace? (user named : Option String) : Option Place :=
  (settingsPlaces user named).find? (r.sees d)

/-- The settings at a place that messages call `name`, or why there are none. -/
def settingsAt (p : Place) (name : String) : Except Failure Settings :=
  match r.read d p with
  | .error e => .error (.file e)
  | .ok text =>
    match reader text with
    | some settings => .ok settings
    | none => .error (.settings (.malformed name))

/-- What the search for settings comes to. A named place is the only one; else there is the place
in the working directory, and the user's place only if nothing is seen there. -/
inductive Decides (user : Option String) : Option String → Except Failure Settings → Prop
  | missing {path : String} (h : r.sees d ⟨.working, path⟩ = false) :
    Decides user (some path) (.error (.settings (.missing path)))
  | named {path : String} (h : r.sees d ⟨.working, path⟩ = true) :
    Decides user (some path) (r.settingsAt reader d ⟨.working, path⟩ path)
  | ofProject (h : r.sees d ⟨.working, Run.settingsPath⟩ = true) :
    Decides user none (r.settingsAt reader d ⟨.working, Run.settingsPath⟩ Run.settingsPath)
  | ofUser {directory : String} (hproject : r.sees d ⟨.working, Run.settingsPath⟩ = false)
    (hdirectory : user = some directory) (h : r.sees d ⟨.user, Run.settingsPath⟩ = true) :
    Decides user none
      (r.settingsAt reader d ⟨.user, Run.settingsPath⟩ (directory ++ "/" ++ Run.settingsPath))
  | nowhere (hproject : r.sees d ⟨.working, Run.settingsPath⟩ = false)
    (huser : user.isSome = true → r.sees d ⟨.user, Run.settingsPath⟩ = false) :
    Decides user none (.ok .default)

/-- Why a text cannot be written to a place; `none` when it can. -/
def refusal? (p : Place) (text : String) : Option FileError :=
  match r.write d p text with
  | .ok _ => none
  | .error e => some e

variable {r d} {p : Place} {text : String}

theorem refusal?_of_ok {d' : Disk} (h : r.write d p text = .ok d') :
    r.refusal? d p text = none := by
  rw [refusal?, h]

theorem refusal?_of_error {e : FileError} (h : r.write d p text = .error e) :
    r.refusal? d p text = some e := by
  rw [refusal?, h]

end Refusals

namespace Run

variable {r : Refusals} {reader : SettingsReader} {d : Disk} {user named : Option String}

/-! ## What the search comes to -/

theorem on_readSettings_fst (p : Place) (name : String) :
    (on r d (readSettings reader p name)).1 = r.settingsAt reader d p name := by
  rw [on_readSettings, Refusals.settingsAt]
  cases r.read d p with
  | error e => rfl
  | ok text =>
    dsimp only
    cases reader text <;> rfl

theorem on_findSettings_fst (user named : Option String) :
    (on r d (findSettings reader user named)).1 =
      match r.decidingPlace? d user named with
      | some p => r.settingsAt reader d p (settingsName user p)
      | none =>
        match named with
        | some path => .error (.settings (.missing path))
        | none => .ok .default := by
  rw [on_findSettings, Refusals.decidingPlace?]
  cases (settingsPlaces user named).find? (r.sees d) with
  | some p => exact on_readSettings_fst _ _
  | none => cases named <;> rfl

/-- The search for settings comes to what the deciding place says. -/
theorem decides_iff {outcome : Except Failure Settings} :
    r.Decides reader d user named outcome ↔
      (on r d (findSettings reader user named)).1 = outcome := by
  rw [on_findSettings_fst, Refusals.decidingPlace?]
  constructor
  · intro h
    cases h with
    | missing h => simp [settingsPlaces, h]
    | named h => simp [settingsPlaces, h, settingsName]
    | ofProject h => simp [settingsPlaces, h, settingsName]
    | ofUser hproject hdirectory h => simp [settingsPlaces, hproject, hdirectory, h, settingsName]
    | nowhere hproject huser =>
      cases user with
      | none => simp [settingsPlaces, hproject]
      | some directory => simp [settingsPlaces, hproject, huser rfl]
  · rintro rfl
    cases named with
    | some path =>
      cases h : r.sees d ⟨.working, path⟩ with
      | false => simpa [settingsPlaces, h] using .missing h
      | true => simpa [settingsPlaces, h, settingsName] using .named h
    | none =>
      cases h : r.sees d ⟨.working, settingsPath⟩ with
      | true => simpa [settingsPlaces, h, settingsName] using .ofProject h
      | false =>
        cases user with
        | none =>
          have huser : (none : Option String).isSome ≠ true := Bool.false_ne_true
          simpa [settingsPlaces, h] using .nowhere h fun hsome => (huser hsome).elim
        | some directory =>
          cases huser : r.sees d ⟨.user, settingsPath⟩ with
          | true => simpa [settingsPlaces, h, huser, settingsName] using .ofUser h rfl huser
          | false => simpa [settingsPlaces, h, huser] using .nowhere h fun _ => huser

/-! ## Two runs -/

/-- Two runs, on `d₁` and `d₂`, end alike. They fail for one reason and leave the disks as they
were; or they write one text to the place `p`, and nothing else; or both systems refuse to write
the text there, each for a reason of its own. -/
inductive EndAlike (r₁ r₂ : Refusals) (d₁ d₂ : Disk) (p : Place) :
    Except Failure Unit × Disk → Except Failure Unit × Disk → Prop
  | failed (failure : Failure) : EndAlike r₁ r₂ d₁ d₂ p (.error failure, d₁) (.error failure, d₂)
  | written {text : String} {d₁' d₂' : Disk} (h₁ : d₁.Writes p text d₁')
    (h₂ : d₂.Writes p text d₂') : EndAlike r₁ r₂ d₁ d₂ p (.ok (), d₁') (.ok (), d₂')
  | refused {text : String} {e₁ e₂ : FileError} (h₁ : r₁.refusal? d₁ p text = some e₁)
    (h₂ : r₂.refusal? d₂ p text = some e₂) :
    EndAlike r₁ r₂ d₁ d₂ p (.error (.file e₁), d₁) (.error (.file e₂), d₂)

variable {r₁ r₂ : Refusals} {d₁ d₂ : Disk} {arguments : Arguments}

/-- Under one collection of settings, two systems that agree on the input and on whether the output
may be written are not told apart. -/
theorem under_endAlike
    (hinput : r₁.read d₁ ⟨.working, arguments.input⟩ = r₂.read d₂ ⟨.working, arguments.input⟩)
    (houtput : ∀ text, (r₁.refusal? d₁ ⟨.working, arguments.output⟩ text).isSome =
      (r₂.refusal? d₂ ⟨.working, arguments.output⟩ text).isSome) (settings : Settings) :
    EndAlike r₁ r₂ d₁ d₂ ⟨.working, arguments.output⟩ (on r₁ d₁ (under settings arguments))
      (on r₂ d₂ (under settings arguments)) := by
  rw [on_under, on_under, hinput]
  cases r₂.read d₂ ⟨.working, arguments.input⟩ with
  | error e => exact .failed _
  | ok source =>
    dsimp only
    cases settings.compileToJson (Path.stem? arguments.input) source with
    | error failure => exact .failed _
    | ok text =>
      dsimp only
      have hrefused := houtput text
      cases h₁ : r₁.write d₁ ⟨.working, arguments.output⟩ text with
      | error e₁ =>
        rw [Refusals.refusal?_of_error h₁] at hrefused
        cases h₂ : r₂.write d₂ ⟨.working, arguments.output⟩ text with
        | error e₂ =>
          exact .refused (Refusals.refusal?_of_error h₁) (Refusals.refusal?_of_error h₂)
        | ok d₂' =>
          rw [Refusals.refusal?_of_ok h₂] at hrefused
          cases hrefused
      | ok d₁' =>
        rw [Refusals.refusal?_of_ok h₁] at hrefused
        cases h₂ : r₂.write d₂ ⟨.working, arguments.output⟩ text with
        | error e₂ =>
          rw [Refusals.refusal?_of_error h₂] at hrefused
          cases hrefused
        | ok d₂' =>
          exact .written (Disk.writes_of_writeText (Refusals.writeText_of_write h₁))
            (Disk.writes_of_writeText (Refusals.writeText_of_write h₂))

/-- Where both systems refuse a text for one reason, if they do, the runs have one result. -/
theorem EndAlike.result_eq {p : Place} {x₁ x₂ : Except Failure Unit × Disk}
    (h : EndAlike r₁ r₂ d₁ d₂ p x₁ x₂)
    (hcause : ∀ text, r₁.refusal? d₁ p text = r₂.refusal? d₂ p text) : x₁.1 = x₂.1 := by
  cases h with
  | failed failure => rfl
  | written _ _ => rfl
  | @refused text e₁ e₂ h₁ h₂ =>
    rw [hcause, h₂] at h₁
    cases h₁
    rfl

/-- The search for settings comes to the same where the same place decides and is read alike. -/
theorem findSettings_congr (reader : SettingsReader)
    (hplace : r₁.decidingPlace? d₁ user named = r₂.decidingPlace? d₂ user named)
    (hread : ∀ p, r₁.decidingPlace? d₁ user named = some p → r₁.read d₁ p = r₂.read d₂ p) :
    (on r₁ d₁ (findSettings reader user named)).1 =
      (on r₂ d₂ (findSettings reader user named)).1 := by
  rw [on_findSettings_fst, on_findSettings_fst, ← hplace]
  cases h : r₁.decidingPlace? d₁ user named with
  | none => rfl
  | some p =>
    dsimp only
    rw [Refusals.settingsAt, Refusals.settingsAt, hread p h]

end Run

/-- Only the configuration that decides has a say in a run. A named one is the only candidate; else
it is the one in the working directory if there is one, whatever it holds, and else the user's.
A candidate that is named and missing, or that cannot be read, or that describes no settings, ends
the run, and where there is none the settings are the default.

Two systems may differ in everything but the candidate that decides, the input, and whether the
output may be written. Then a run ends on both alike: with the same failure, or with the same text
written and nothing else. Only where both refuse the output may they name different causes. -/
theorem run_decided {reader : SettingsReader} {r₁ r₂ : Refusals} {d₁ d₂ : Disk}
    {user : Option String} {arguments : Arguments}
    (hinput : r₁.read d₁ ⟨.working, arguments.input⟩ = r₂.read d₂ ⟨.working, arguments.input⟩)
    (houtput : ∀ text, (r₁.refusal? d₁ ⟨.working, arguments.output⟩ text).isSome =
      (r₂.refusal? d₂ ⟨.working, arguments.output⟩ text).isSome)
    (hplace : r₁.decidingPlace? d₁ user arguments.settings =
      r₂.decidingPlace? d₂ user arguments.settings)
    (hread : ∀ p, r₁.decidingPlace? d₁ user arguments.settings = some p →
      r₁.read d₁ p = r₂.read d₂ p) :
    (∃ outcome, (∀ o, r₁.Decides reader d₁ user arguments.settings o ↔ o = outcome) ∧
      (∀ o, r₂.Decides reader d₂ user arguments.settings o ↔ o = outcome) ∧
      Run.on r₁ d₁ (runWith reader user arguments) = Run.onward r₁ d₁ arguments outcome ∧
      Run.on r₂ d₂ (runWith reader user arguments) = Run.onward r₂ d₂ arguments outcome) ∧
    Run.EndAlike r₁ r₂ d₁ d₂ ⟨.working, arguments.output⟩
      (Run.on r₁ d₁ (runWith reader user arguments))
      (Run.on r₂ d₂ (runWith reader user arguments)) ∧
    ((∀ text, r₁.refusal? d₁ ⟨.working, arguments.output⟩ text =
        r₂.refusal? d₂ ⟨.working, arguments.output⟩ text) →
      (Run.on r₁ d₁ (runWith reader user arguments)).1 =
        (Run.on r₂ d₂ (runWith reader user arguments)).1) := by
  have hsame := Run.findSettings_congr reader hplace hread
  have halike : Run.EndAlike r₁ r₂ d₁ d₂ ⟨.working, arguments.output⟩
      (Run.on r₁ d₁ (runWith reader user arguments))
      (Run.on r₂ d₂ (runWith reader user arguments)) := by
    rw [Run.on_runWith_onward, Run.on_runWith_onward, ← hsame]
    cases (Run.on r₁ d₁ (Run.findSettings reader user arguments.settings)).1 with
    | error failure => exact .failed failure
    | ok settings => exact Run.under_endAlike hinput houtput settings
  refine ⟨⟨_, fun o => Run.decides_iff.trans eq_comm, fun o => ?_, Run.on_runWith_onward _ _, ?_⟩,
    halike, halike.result_eq⟩
  · rw [hsame]
    exact Run.decides_iff.trans eq_comm
  · rw [hsame]
    exact Run.on_runWith_onward _ _

/-- A system that keeps the user's files from being read. -/
def guardedUser : Refusals :=
  { Refusals.nothing with
    reading := fun _ p => if p.base = .user then some (.other "Permission denied") else none }

/-- A source, and a configuration in its directory. -/
def sourceEntries (configuration : String) : List (Location × Entry) :=
  [(⟨some .working, 0, ["a.scn"]⟩, .file "user 'U' as u;".toUTF8),
    (⟨some .working, 0, ["scenaria"]⟩, .directory),
    (⟨some .working, 0, ["scenaria", "config.toml"]⟩, .file configuration.toUTF8)]

/-- An earlier model, and a configuration of the user. -/
def furtherEntries : List (Location × Entry) :=
  [(⟨some .working, 0, ["model.json"]⟩, .file "[]".toUTF8),
    (⟨some .user, 0, ["scenaria"]⟩, .directory),
    (⟨some .user, 0, ["scenaria", "config.toml"]⟩, .file "[export]\npretty = true".toUTF8)]

def sourceDisk (configuration : String) : Disk := ⟨.ofList (sourceEntries configuration)⟩

def fullDisk (configuration : String) : Disk :=
  ⟨.ofList (sourceEntries configuration ++ furtherEntries)⟩

def sourceArguments : Arguments := ⟨"a.scn", "model.json", none, "info"⟩

def brokenSettings : String := "[parser"

theorem read_sourceDisk (configuration : String) :
    Refusals.nothing.read (sourceDisk configuration) ⟨.working, "a.scn"⟩ = .ok "user 'U' as u;" ∧
    Refusals.nothing.read (sourceDisk configuration) ⟨.working, Run.settingsPath⟩ =
      .ok configuration :=
  ⟨Disk.readText_of_entryAt (l := ⟨some .working, 0, ["a.scn"]⟩) rfl rfl,
    Disk.readText_of_entryAt (l := ⟨some .working, 0, ["scenaria", "config.toml"]⟩) rfl rfl⟩

theorem read_fullDisk (configuration : String) :
    guardedUser.read (fullDisk configuration) ⟨.working, "a.scn"⟩ = .ok "user 'U' as u;" ∧
    guardedUser.read (fullDisk configuration) ⟨.working, Run.settingsPath⟩ = .ok configuration :=
  ⟨Disk.readText_of_entryAt (l := ⟨some .working, 0, ["a.scn"]⟩) rfl rfl,
    Disk.readText_of_entryAt (l := ⟨some .working, 0, ["scenaria", "config.toml"]⟩) rfl rfl⟩

/-- Two systems have the same configuration beside the source, and one of them an earlier model and
a configuration of the user that cannot be read. Where the first configuration is malformed both
runs fail with it, and where it is good both write the same model. -/
theorem run_decided_noFallback :
    Run.on .nothing (sourceDisk brokenSettings)
        (runWith compactReader (some "home") sourceArguments) =
        (.error (.settings (.malformed "scenaria/config.toml")), sourceDisk brokenSettings) ∧
    Run.on guardedUser (fullDisk brokenSettings)
        (runWith compactReader (some "home") sourceArguments) =
        (.error (.settings (.malformed "scenaria/config.toml")), fullDisk brokenSettings) ∧
    ∃ text d₁ d₂,
      Run.on .nothing (sourceDisk compactSettings)
          (runWith compactReader (some "home") sourceArguments) =
        (.ok (), d₁) ∧
      Run.on guardedUser (fullDisk compactSettings)
          (runWith compactReader (some "home") sourceArguments) =
        (.ok (), d₂) ∧
      d₁.readText ⟨.working, "model.json"⟩ = .ok text ∧
      d₂.readText ⟨.working, "model.json"⟩ = .ok text := by
  have hdecided := fun configuration => @run_decided compactReader .nothing guardedUser
    (sourceDisk configuration) (fullDisk configuration) (some "home") sourceArguments
    ((read_sourceDisk configuration).1.trans (read_fullDisk configuration).1.symm)
    (fun _ => rfl) rfl
    (by
      rintro p ⟨⟩
      exact (read_sourceDisk configuration).2.trans (read_fullDisk configuration).2.symm)
  have hmalformed : Refusals.nothing.settingsAt compactReader (sourceDisk brokenSettings)
      ⟨.working, Run.settingsPath⟩ Run.settingsPath =
        .error (.settings (.malformed "scenaria/config.toml")) := by
    rw [Refusals.settingsAt, (read_sourceDisk _).2]
    rfl
  obtain ⟨⟨outcome, houtcome, _, h₁, h₂⟩, _⟩ := hdecided brokenSettings
  rw [← (houtcome _).1 (.ofProject rfl), hmalformed] at h₁ h₂
  refine ⟨h₁, h₂, ?_⟩
  obtain ⟨model, hmodel, _⟩ := exists_ok_of_toOption (f := fun _ => ()) (b := ())
    (r := compile .default "user 'U' as u;") (by decide +kernel)
  have hfinds : Refusals.nothing.Finds compactReader (sourceDisk compactSettings) (some "home") none
      ⟨true, .replace, false⟩ := ⟨_, (read_sourceDisk _).2, if_pos rfl⟩
  have hexport : Settings.compileToJson ⟨true, .replace, false⟩ (Path.stem? "a.scn")
      "user 'U' as u;" = .ok _ := Run.compileToJson_iff.2 ⟨model, hmodel, rfl⟩
  have hwrite : ∀ text, Refusals.nothing.write (sourceDisk compactSettings)
      ⟨.working, "model.json"⟩ text = .ok ((sourceDisk compactSettings).put
        ⟨some .working, 0, ["model.json"]⟩ text.toUTF8) := fun _ => rfl
  have hends : Run.on .nothing (sourceDisk compactSettings)
      (runWith compactReader (some "home") sourceArguments) = (.ok (), _) :=
    Run.on_runWith_iff.2 ⟨_, _, _, hfinds, (read_sourceDisk _).1, hexport, hwrite _⟩
  obtain ⟨_, halike, _⟩ := hdecided compactSettings
  rw [hends] at halike
  generalize Run.on guardedUser _ _ = other at halike ⊢
  cases halike with
  | written hw₁ hw₂ => exact ⟨_, _, _, hends, rfl, hw₁.readText, hw₂.readText⟩

end ArchScript
