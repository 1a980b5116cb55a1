/-
  A run is atomic, and it touches its output only.

  `run_atomic` holds for every disk, whatever the system refuses beyond it, for every reader of
  configurations and for all arguments, also where the input, the output and the settings are one
  file: everything is read before anything is written.
-/
import ArchScript.Proofs.Compile
import ArchScript.Proofs.Files.Writing
import ArchScript.Proofs.Run.Guarded

namespace ArchScript

/-- A run that fails leaves the disk as it was. A run ends well exactly when it finds settings,
reads its input, compiles it under the settings and may write the output. Then the file at the
output path holds the export of the model, laid out by the settings, in which only the name is
another: the stem of the input. Nothing else has changed. -/
theorem run_atomic (reader : SettingsReader) (r : Refusals) (user : Option String)
    (arguments : Arguments) (d : Disk) :
    (∀ failure d', Run.on r d (runWith reader user arguments) = (.error failure, d') → d' = d) ∧
      ∀ d', Run.on r d (runWith reader user arguments) = (.ok (), d') ↔
        ∃ settings source model name text,
          r.Finds reader d user arguments.settings settings ∧
          r.read d ⟨.working, arguments.input⟩ = .ok source ∧
          compile settings.elaboration source = .ok model ∧
          Path.stem? arguments.input = some name ∧
          text = SystemModel.toJson { model with name } settings.pretty ∧
          r.write d ⟨.working, arguments.output⟩ text = .ok d' ∧
          d.Writes ⟨.working, arguments.output⟩ text d' := by
  refine ⟨fun failure d' h => Run.on_runWith_error h, fun d' => Run.on_runWith_iff.trans ⟨?_, ?_⟩⟩
  · rintro ⟨settings, source, text, hsettings, hsource, htext, hwrite⟩
    obtain ⟨name, hname⟩ := Disk.exists_stem_of_readText (Refusals.readText_of_read hsource)
    rw [hname] at htext
    obtain ⟨model, hmodel, hexport⟩ := Run.compileToJson_iff.1 htext
    exact ⟨settings, source, model, name, text, hsettings, hsource, hmodel, hname, hexport.symm,
      hwrite, Disk.writes_of_writeText (Refusals.writeText_of_write hwrite)⟩
  · rintro ⟨settings, source, model, name, text, hsettings, hsource, hmodel, hname, hexport,
      hwrite, _⟩
    refine ⟨settings, source, text, hsettings, hsource, ?_, hwrite⟩
    rw [hname]
    exact Run.compileToJson_iff.2 ⟨model, hmodel, hexport.symm⟩

/-- A disk with a source and, in its directory, settings for exports on one line. -/
def projectDisk : Disk where
  entries := .ofList
    [(⟨some .working, 0, ["a.b.scn"]⟩, .file "user 'U' as u;".toUTF8),
      (⟨some .working, 0, ["scenaria"]⟩, .directory),
      (⟨some .working, 0, ["scenaria", "config.toml"]⟩, .file compactSettings.toUTF8)]

/-- The export of the source on the disk. -/
def projectExport : String :=
  "\x7b\"name\":\"a.b\",\"actors\":[\x7b\"id\":\"u\",\"kind\":\"user\",\"caption\":\"U\"," ++
    "\"annotations\":[],\"properties\":\x7b\x7d\x7d],\"channels\":[],\"data_flows\":[]," ++
    "\"scenarios\":[],\"annotations\":\x7b\x7d,\"containers\":\x7b\x7d\x7d"

/-- A run may write over its own input: the source is read before the file is lost. The model in
the file has the name of the source without its extension. -/
theorem run_atomic_overInput :
    ∃ d', Run.on .nothing projectDisk
        (runWith compactReader (some "home") ⟨"a.b.scn", "./a.b.scn", none, "info"⟩) =
          (.ok (), d') ∧
      d'.readText ⟨.working, "a.b.scn"⟩ = .ok projectExport := by
  have hsettings : projectDisk.readText ⟨.working, Run.settingsPath⟩ = .ok compactSettings :=
    Disk.readText_of_entryAt (l := ⟨some .working, 0, ["scenaria", "config.toml"]⟩) rfl rfl
  have hfinds : Refusals.nothing.Finds compactReader projectDisk (some "home") none
      ⟨true, .replace, false⟩ := ⟨_, hsettings, if_pos rfl⟩
  have hsource : projectDisk.readText ⟨.working, "a.b.scn"⟩ = .ok "user 'U' as u;" :=
    Disk.readText_of_entryAt (l := ⟨some .working, 0, ["a.b.scn"]⟩) rfl rfl
  have hwrite : ∀ text, projectDisk.writeText ⟨.working, "./a.b.scn"⟩ text =
      .ok (projectDisk.put ⟨some .working, 0, ["a.b.scn"]⟩ text.toUTF8) := fun _ => rfl
  have htext : (compile .default "user 'U' as u;").toOption.map
      (fun m => Json.write .compact 0 (Export.model { m with name := "a.b" })) =
        some projectExport.toList := by
    decide +kernel
  obtain ⟨model, hmodel, hwritten⟩ := exists_ok_of_toOption htext
  have hexport : projectExport = SystemModel.toJson { model with name := "a.b" } false :=
    String.ofList_toList.symm.trans (congrArg String.ofList hwritten.symm)
  have hatomic := (run_atomic compactReader .nothing (some "home")
    ⟨"a.b.scn", "./a.b.scn", none, "info"⟩ projectDisk).2
  refine ⟨_, (hatomic _).2 ⟨_, _, model, "a.b", projectExport, hfinds, hsource, hmodel, by decide,
    hexport, hwrite _, Disk.writes_of_writeText (hwrite _)⟩, ?_⟩
  exact Disk.readText_of_entryAt (l := ⟨some .working, 0, ["a.b.scn"]⟩) rfl rfl

end ArchScript
