/-
  Runs on a disk that is guarded.

  What a system refuses does not follow from what stands on the disk: a right is missing, the
  device is full or broken. `Refusals` says what is hidden, unreadable or unwritable beyond that, in
  any way at all, and a disk that is guarded so is a store of files. Where nothing is refused, a run
  is the run on the disk alone (`runWith_unrefused`).

  A run looks for settings in a fixed order of places, and the first that is seen decides
  (`Run.on_findSettings`). Only its last step changes the disk, so a run that fails leaves it as it
  was (`Run.on_runWith_error`), and one that ends well has gone through every step
  (`Run.on_runWith_iff`).
-/
import ArchScript.Files.Disk
import ArchScript.Run.Steps

namespace ArchScript

/-! ## Refusals -/

/-- What a system refuses for reasons that do not stand on the disk. -/
structure Refusals where
  /-- a place that is not seen, whatever stands there -/
  hides : Disk → Place → Bool
  reading : Disk → Place → Option FileError
  writing : Disk → Place → String → Option FileError

namespace Refusals

/-- Nothing is refused. -/
def nothing : Refusals :=
  { hides := fun _ _ => false, reading := fun _ _ => none, writing := fun _ _ _ => none }

variable (r : Refusals) (d : Disk)

def sees (p : Place) : Bool := if r.hides d p then false else d.present p

def read (p : Place) : Except FileError String :=
  match r.reading d p with
  | some e => .error e
  | none => d.readText p

def write (p : Place) (text : String) : Except FileError Disk :=
  match r.writing d p text with
  | some e => .error e
  | none => d.writeText p text

end Refusals

/-- Computations on a disk that is guarded. -/
abbrev GuardedDisk := ReaderT Refusals (StateM Disk)

instance : FileStore GuardedDisk where
  present p := fun r d => (r.sees d p, d)
  readText p := fun r d => (r.read d p, d)
  writeText p text := fun r => Disk.attempt fun d => r.write d p text

variable {r : Refusals} {d : Disk}

theorem Refusals.readText_of_read {p : Place} {text : String} (h : r.read d p = .ok text) :
    d.readText p = .ok text := by
  unfold read at h
  split at h
  · cases h
  · exact h

theorem Refusals.writeText_of_write {p : Place} {text : String} {d' : Disk}
    (h : r.write d p text = .ok d') : d.writeText p text = .ok d' := by
  unfold write at h
  split at h
  · cases h
  · exact h

/-! ## Steps of a run -/

namespace Run

variable {α β : Type}

/-- The outcome of an action on a guarded disk, and the disk after it. -/
def on (r : Refusals) (d : Disk) (x : ExceptT Failure GuardedDisk α) : Except Failure α × Disk :=
  x.run r d

theorem on_bind (x : ExceptT Failure GuardedDisk α) (f : α → ExceptT Failure GuardedDisk β) :
    on r d (x >>= f) =
      match on r d x with
      | (.ok a, d') => on r d' (f a)
      | (.error e, d') => (.error e, d') := by
  simp only [on, ExceptT.run, bind, ExceptT.bind, ExceptT.mk, ReaderT.bind, StateT.bind]
  rcases (x : GuardedDisk (Except Failure α)) r d with ⟨_ | _, _⟩ <;> rfl

theorem on_present (p : Place) : on r d (present p) = (.ok (r.sees d p), d) := rfl

theorem on_readText (p : Place) :
    on r d (readText p) =
      match r.read d p with
      | .ok text => (.ok text, d)
      | .error e => (.error (.file e), d) := by
  show ((r.read d p).mapError Failure.file, d) = _
  cases r.read d p <;> rfl

theorem on_writeText (p : Place) (text : String) :
    on r d (writeText p text) =
      match r.write d p text with
      | .ok d' => (.ok (), d')
      | .error e => (.error (.file e), d) := by
  show ((Disk.attempt (fun d => r.write d p text) d).1.mapError Failure.file,
    (Disk.attempt (fun d => r.write d p text) d).2) = _
  simp only [Disk.attempt]
  cases r.write d p text <;> rfl

theorem on_liftM (x : Except Failure α) : on r d (liftM x) = (x, d) := by cases x <;> rfl

end Run

/-! ## Settings -/

/-- The file at a place can be read and its text describes the settings. -/
def Refusals.Holds (r : Refusals) (reader : SettingsReader) (d : Disk) (p : Place)
    (settings : Settings) : Prop :=
  ∃ text, r.read d p = .ok text ∧ reader text = some settings

/-- A configuration that asks for exports on one line. -/
def compactSettings : String := "[export]\npretty = false"

/-- A reader that knows no other configuration. -/
def compactReader : SettingsReader := fun text =>
  if text = compactSettings then some { Settings.default with pretty := false } else none

/-- Where settings are looked for: at the path that the arguments name and nowhere else, or in the
working directory and then with the user. -/
def settingsPlaces (user named : Option String) : List Place :=
  match named with
  | some path => [⟨.working, path⟩]
  | none => ⟨.working, Run.settingsPath⟩ :: (user.map fun _ => ⟨.user, Run.settingsPath⟩).toList

/-- The settings of a run are those of the first place that is seen; where none is and none was
named, the default. -/
def Refusals.Finds (r : Refusals) (reader : SettingsReader) (d : Disk) (user named : Option String)
    (settings : Settings) : Prop :=
  match (settingsPlaces user named).find? (r.sees d) with
  | some p => r.Holds reader d p settings
  | none => named = none ∧ settings = .default

/-- What messages call a place of settings. -/
def settingsName (user : Option String) (p : Place) : String :=
  match p.base with
  | .working => p.path
  | .user => user.getD "" ++ "/" ++ p.path

namespace Run

variable {reader : SettingsReader}

theorem on_readSettings (p : Place) (name : String) :
    on r d (readSettings reader p name) =
      match r.read d p with
      | .error e => (.error (.file e), d)
      | .ok text =>
        match reader text with
        | some settings => (.ok settings, d)
        | none => (.error (.settings (.malformed name)), d) := by
  unfold readSettings
  rw [on_bind, on_readText]
  cases r.read d p with
  | error e => rfl
  | ok text =>
    dsimp only
    cases reader text <;> rfl

/-- The first place that is seen decides, and no other counts. -/
theorem on_findSettings (user named : Option String) :
    on r d (findSettings reader user named) =
      match (settingsPlaces user named).find? (r.sees d) with
      | some p => on r d (readSettings reader p (settingsName user p))
      | none =>
        match named with
        | some path => (.error (.settings (.missing path)), d)
        | none => (.ok .default, d) := by
  cases named with
  | some path =>
    simp only [findSettings, settingsPlaces, on_bind, on_present, List.find?_cons]
    cases r.sees d ⟨.working, path⟩ <;> rfl
  | none =>
    simp only [findSettings, settingsPlaces, on_bind, on_present, List.find?_cons]
    cases r.sees d ⟨.working, settingsPath⟩ with
    | true => rfl
    | false =>
      cases user with
      | none => rfl
      | some directory =>
        simp only [Bool.false_eq_true, if_false, on_bind, on_present, Option.map_some,
          Option.toList_some, List.find?_cons]
        cases r.sees d ⟨.user, settingsPath⟩ <;> rfl

/-- Looking for settings leaves the disk alone. -/
theorem on_findSettings_state (user named : Option String) :
    (on r d (findSettings reader user named)).2 = d := by
  rw [on_findSettings]
  split
  · rw [on_readSettings]
    split
    · rfl
    · split <;> rfl
  · split <;> rfl

theorem on_findSettings_iff {user named : Option String} {settings : Settings} :
    (on r d (findSettings reader user named)).1 = .ok settings ↔
      r.Finds reader d user named settings := by
  rw [on_findSettings]
  unfold Refusals.Finds
  split
  · next p _ =>
    rw [on_readSettings]
    unfold Refusals.Holds
    cases r.read d p with
    | error e => simp
    | ok text => cases h : reader text <;> simp [h]
  · cases named <;> simp [eq_comm]

/-! ## Runs -/

theorem compileToJson_iff {settings : Settings} {name : Option String} {source text : String} :
    settings.compileToJson name source = .ok text ↔
      ∃ model, compile settings.elaboration source = .ok model ∧
        ((name.map model.withName).getD model).toJson settings.pretty = text := by
  unfold Settings.compileToJson
  cases compile settings.elaboration source <;> simp

/-- The rest of a run, once it has its settings. -/
def under {m : Type → Type} [Monad m] [FileStore m] (settings : Settings) (arguments : Arguments) :
    ExceptT Failure m Unit := do
  let source ← readText ⟨.working, arguments.input⟩
  let text ← settings.compileToJson (Path.stem? arguments.input) source
  writeText ⟨.working, arguments.output⟩ text

theorem runWith_eq_bind {m : Type → Type} [Monad m] [FileStore m] (reader : SettingsReader)
    (user : Option String) (arguments : Arguments) :
    (runWith reader user arguments : ExceptT Failure m Unit) =
      findSettings reader user arguments.settings >>= fun settings => under settings arguments :=
  rfl

/-- Where a run goes from what its search for settings has come to. -/
def onward (r : Refusals) (d : Disk) (arguments : Arguments) :
    Except Failure Settings → Except Failure Unit × Disk
  | .error failure => (.error failure, d)
  | .ok settings => on r d (under settings arguments)

/-- A run looks for settings and goes on under them. -/
theorem on_runWith_onward (user : Option String) (arguments : Arguments) :
    on r d (runWith reader user arguments) =
      onward r d arguments (on r d (findSettings reader user arguments.settings)).1 := by
  have hstate : (on r d (findSettings reader user arguments.settings)).2 = d :=
    on_findSettings_state _ _
  rw [runWith_eq_bind, on_bind]
  generalize on r d (findSettings reader user arguments.settings) = found at hstate ⊢
  obtain ⟨outcome, d₁⟩ := found
  rw [show d₁ = d from hstate]
  cases outcome <;> rfl

theorem on_under (settings : Settings) (arguments : Arguments) :
    on r d (under settings arguments) =
      match r.read d ⟨.working, arguments.input⟩ with
      | .error e => (.error (.file e), d)
      | .ok source =>
        match settings.compileToJson (Path.stem? arguments.input) source with
        | .error e => (.error e, d)
        | .ok text =>
          match r.write d ⟨.working, arguments.output⟩ text with
          | .error e => (.error (.file e), d)
          | .ok d' => (.ok (), d') := by
  unfold under
  simp only [on_bind, on_readText, on_liftM, on_writeText]
  cases r.read d ⟨.working, arguments.input⟩ with
  | error e => rfl
  | ok source =>
    dsimp only
    cases settings.compileToJson (Path.stem? arguments.input) source with
    | error e => rfl
    | ok text =>
      dsimp only
      cases r.write d ⟨.working, arguments.output⟩ text <;> rfl

/-- A run is its four steps, one after the other, and only the last one changes the disk. -/
theorem on_runWith (user : Option String) (arguments : Arguments) :
    on r d (runWith reader user arguments) =
      match (on r d (findSettings reader user arguments.settings)).1 with
      | .error e => (.error e, d)
      | .ok settings =>
        match r.read d ⟨.working, arguments.input⟩ with
        | .error e => (.error (.file e), d)
        | .ok source =>
          match settings.compileToJson (Path.stem? arguments.input) source with
          | .error e => (.error e, d)
          | .ok text =>
            match r.write d ⟨.working, arguments.output⟩ text with
            | .error e => (.error (.file e), d)
            | .ok d' => (.ok (), d') := by
  rw [on_runWith_onward]
  cases (on r d (findSettings reader user arguments.settings)).1 with
  | error e => rfl
  | ok settings => exact on_under settings arguments

variable {user : Option String} {arguments : Arguments} {d' : Disk}

theorem on_runWith_error {failure : Failure}
    (h : on r d (runWith reader user arguments) = (.error failure, d')) : d' = d := by
  rw [on_runWith] at h
  split at h
  · cases h
    rfl
  · split at h
    · cases h
      rfl
    · split at h
      · cases h
        rfl
      · split at h
        · cases h
          rfl
        · cases h

theorem on_runWith_iff :
    on r d (runWith reader user arguments) = (.ok (), d') ↔
      ∃ settings source text, r.Finds reader d user arguments.settings settings ∧
        r.read d ⟨.working, arguments.input⟩ = .ok source ∧
        settings.compileToJson (Path.stem? arguments.input) source = .ok text ∧
        r.write d ⟨.working, arguments.output⟩ text = .ok d' := by
  simp only [← on_findSettings_iff]
  rw [on_runWith]
  constructor
  · intro h
    split at h
    · cases h
    · next settings hsettings =>
      split at h
      · cases h
      · next source hsource =>
        split at h
        · cases h
        · next text htext =>
          split at h
          · cases h
          · next hwrite =>
            cases h
            exact ⟨settings, source, text, hsettings, hsource, htext, hwrite⟩
  · rintro ⟨settings, source, text, hsettings, hsource, htext, hwrite⟩
    rw [hsettings]
    dsimp only
    rw [hsource]
    dsimp only
    rw [htext]
    dsimp only
    rw [hwrite]

/-! ## Nothing refused -/

/-- The actions have one outcome, on a disk where nothing is refused and on the disk alone. -/
def Alike (x : ExceptT Failure GuardedDisk α) (y : ExceptT Failure (StateM Disk) α) : Prop :=
  ∀ d, on .nothing d x = y.run d

theorem Alike.seq {x : ExceptT Failure GuardedDisk α} {y : ExceptT Failure (StateM Disk) α}
    {f : α → ExceptT Failure GuardedDisk β} {g : α → ExceptT Failure (StateM Disk) β}
    (h : Alike x y) (hfg : ∀ a, Alike (f a) (g a)) : Alike (x >>= f) (y >>= g) := by
  intro d
  rw [on_bind, h d]
  simp only [ExceptT.run, bind, ExceptT.bind, ExceptT.mk, StateT.bind]
  rcases (y : StateM Disk (Except Failure α)) d with ⟨_ | a, d'⟩
  · rfl
  · exact hfg a d'

theorem alike_readSettings (p : Place) (name : String) :
    Alike (readSettings reader p name) (readSettings reader p name) := by
  refine Alike.seq (fun _ => rfl) fun text => ?_
  cases reader text <;> exact fun _ => rfl

theorem alike_findSettings (user named : Option String) :
    Alike (findSettings reader user named) (findSettings reader user named) := by
  cases named with
  | some path =>
    refine Alike.seq (fun _ => rfl) fun isThere => ?_
    cases isThere with
    | true => exact alike_readSettings _ _
    | false => exact fun _ => rfl
  | none =>
    refine Alike.seq (fun _ => rfl) fun isThere => ?_
    cases isThere with
    | true => exact alike_readSettings _ _
    | false =>
      cases user with
      | none => exact fun _ => rfl
      | some directory =>
        refine Alike.seq (fun _ => rfl) fun isThere => ?_
        cases isThere with
        | true => exact alike_readSettings _ _
        | false => exact fun _ => rfl

end Run

/-- Where nothing is refused, a run is a run on the disk alone. -/
theorem runWith_unrefused (reader : SettingsReader) (user : Option String) (arguments : Arguments)
    (d : Disk) :
    Run.on .nothing d (runWith reader user arguments) =
      (runWith reader user arguments : ExceptT Failure (StateM Disk) Unit).run d := by
  refine Run.Alike.seq (Run.alike_findSettings _ _) (fun settings => ?_) d
  refine Run.Alike.seq (fun _ => rfl) fun source => ?_
  refine Run.Alike.seq (fun d => ?_) fun text _ => rfl
  cases settings.compileToJson (Path.stem? arguments.input) source <;> rfl

end ArchScript
