import NestedPascal.Proofs.CommandLine.Reading
import NestedPascal.Proofs.Configuration.Validation
import NestedPascal.Proofs.Json.Members

/-!
# Where the configuration comes from

The file of the project decides if there is one, whatever the user has; then the file of the user,
then the defaults.  A file that decides yields what its text gives if that is accepted, and otherwise
an error that carries the path of the file.  So the limit that a run takes from the configuration is
a positive integer.
-/

namespace NestedPascal

theorem Config.read_ok_iff {text : List Char} {c : Config} :
    Config.read text = .ok c ↔ ∃ root, Json.read text = .ok root ∧ Config.Accepts root c := by
  rw [Config.read]
  cases Json.read text with
  | error fault => simp
  | ok root => simp [Config.ofJson_ok_iff]

namespace ConfigFile

/-- What a file that is there makes of the configuration: its text is accepted, or there is an error
that carries its path and, if the text is JSON, names what fails first. -/
structure Decides (found : ConfigFile) (source : ConfigSource) (path : String)
    (outcome : Except ConfigError ResolvedConfig) : Prop where
  ok_iff : ∀ r, outcome = .ok r ↔
    ∃ text root, found = .text text ∧ Json.read text = .ok root ∧ Config.Accepts root r.config ∧
      r.source = source ∧ r.path = some path
  error : ∀ e, outcome = .error e → e.path = path ∧
    (∀ words, (e.diagnostic words).code = "E_CONFIG") ∧
    ∀ text root, found = .text text → Json.read text = .ok root →
      ∃ place v check, Config.FirstFailure root place v check ∧
        e.cause = .invalid place (check.fault v) ∧
        ∀ words, e.message words =
          "Invalid config file '" ++ path ++ "': " ++ place.text ++ ": " ++ (check.fault v).message

variable {found : ConfigFile} {source : ConfigSource} {path : String}
  {outcome : Except ConfigError ResolvedConfig}

theorem decides_of_load (h : found.load source path = some outcome) :
    found.Decides source path outcome := by
  cases found with
  | absent => contradiction
  | unreadable reason =>
      cases h
      refine ⟨fun r => iff_of_false (by simp) (by simp), ?_⟩
      rintro e ⟨⟩
      exact ⟨rfl, fun _ => rfl, by simp⟩
  | text s =>
      cases hread : Config.read s with
      | ok config =>
          have houtcome : outcome = .ok ⟨config, source, some path⟩ := by
            rw [load, hread] at h
            exact (Option.some.inj h).symm
          obtain ⟨root, hroot, haccepts⟩ := Config.read_ok_iff.mp hread
          refine ⟨fun r => ?_, fun e he => by simp [houtcome] at he⟩
          rw [houtcome]
          constructor
          · rintro ⟨⟩
            exact ⟨s, root, rfl, hroot, haccepts, rfl, rfl⟩
          · rintro ⟨text, root', ⟨⟩, hroot', haccepts', hsource, hpath⟩
            have hconfig := Config.read_ok_iff.mpr ⟨root', hroot', haccepts'⟩
            rw [hread] at hconfig
            obtain ⟨config', source', path'⟩ := r
            cases hconfig
            cases hsource
            cases hpath
            rfl
      | error cause =>
          have houtcome : outcome = .error ⟨path, cause⟩ := by
            rw [load, hread] at h
            exact (Option.some.inj h).symm
          constructor
          · intro r
            refine iff_of_false (by simp [houtcome]) ?_
            rintro ⟨text, root, ⟨⟩, hroot, haccepts, -⟩
            rw [Config.read_ok_iff.mpr ⟨root, hroot, haccepts⟩] at hread
            contradiction
          · intro e he
            rw [houtcome] at he
            cases he
            refine ⟨rfl, fun _ => rfl, ?_⟩
            rintro text root ⟨⟩ hroot
            rw [Config.read, hroot] at hread
            obtain ⟨place, v, check, hfirst, rfl⟩ := Config.ofJson_error hread
            exact ⟨place, v, check, hfirst, rfl, fun _ => rfl⟩

theorem load_isSome (h : found ≠ .absent) (source : ConfigSource) (path : String) :
    ∃ outcome, found.load source path = some outcome := by
  cases found with
  | absent => contradiction
  | unreadable reason => exact ⟨_, rfl⟩
  | text s => exact ⟨_, rfl⟩

end ConfigFile

namespace ResolvedConfig

section

variable {project user : ConfigFile} (projectPath userPath : String)

theorem resolve_project (h : project ≠ .absent) (user : ConfigFile) :
    project.load .project projectPath = some (resolve projectPath userPath project user) := by
  obtain ⟨outcome, hload⟩ := ConfigFile.load_isSome h .project projectPath
  rw [resolve, hload, Option.some_or, Option.getD_some]

theorem resolve_user (h : user ≠ .absent) :
    user.load .user userPath = some (resolve projectPath userPath .absent user) := by
  obtain ⟨outcome, hload⟩ := ConfigFile.load_isSome h .user userPath
  rw [resolve, hload]
  rfl

end

variable {projectPath userPath : String} {project user : ConfigFile}

/-- What is resolved is what some text gives, or the default. -/
theorem resolve_ok {r : ResolvedConfig} (h : resolve projectPath userPath project user = .ok r) :
    (∃ root, Config.Accepts root r.config) ∨ r.config = Config.default := by
  by_cases hproject : project = .absent
  · subst hproject
    by_cases huser : user = .absent
    · subst huser
      cases h
      exact .inr rfl
    · obtain ⟨text, root, -, -, haccepts, -⟩ :=
        ((ConfigFile.decides_of_load (resolve_user _ _ huser)).ok_iff r).mp h
      exact .inl ⟨root, haccepts⟩
  · obtain ⟨text, root, -, -, haccepts, -⟩ :=
      ((ConfigFile.decides_of_load (resolve_project _ _ hproject _)).ok_iff r).mp h
    exact .inl ⟨root, haccepts⟩

/-- The limit of a configuration is a positive integer, exactly the number that is given. -/
theorem limit_of_resolve {r : ResolvedConfig}
    (h : resolve projectPath userPath project user = .ok r) :
    0 < r.config.maxCallDepth ∧
      (Binary64.ofInt r.config.maxCallDepth).toInt? = some (r.config.maxCallDepth : Int) := by
  rcases resolve_ok h with ⟨root, haccepts⟩ | hdefault
  · exact ⟨haccepts.maxCallDepth.positive (by decide),
      haccepts.maxCallDepth.toInt?_ofInt (by decide)⟩
  · have hpositive : 0 < Config.default.maxCallDepth := by decide
    rw [hdefault]
    exact ⟨hpositive, Binary64.toInt?_ofInt (by decide)⟩

end ResolvedConfig

/-! ## The limit of a run -/

namespace Surroundings

variable {around : Surroundings} {t : FileTree}

/-- What is found at the path of a configuration file. -/
def configFile (around : Surroundings) (t : FileTree) (path : String) : ConfigFile :=
  ((around.host.configFile path).run (.ofFiles t)).1

/-- The configuration that the files give. -/
def resolved (around : Surroundings) (t : FileTree) : Except ConfigError ResolvedConfig :=
  let projectPath := Host.below (FileTree.pathOf around.current) ".minipasrc.json"
  let userPath := Host.below (FileTree.pathOf around.home) ".minipas/config.json"
  ResolvedConfig.resolve projectPath userPath (around.configFile t projectPath)
    (around.configFile t userPath)

theorem run_resolveConfig (around : Surroundings) (t : FileTree) :
    (around.host.resolveConfig.run (.ofFiles t)).1 = around.resolved t := by
  rw [Host.resolveConfig, (around.readsFiles_configFile _).run_bind,
    (around.readsFiles_configFile _).run_bind]
  rfl

theorem callDepth_none (around : Surroundings) (t : FileTree) :
    around.callDepth t none = (around.resolved t).map fun r => .ofInt r.config.maxCallDepth := by
  rw [callDepth, Host.callDepth, around.readsFiles_resolveConfig.run_bind, run_resolveConfig]
  rfl

end Surroundings

/-- The configuration is that of the project's file if there is one, else that of the user's, else
the default.  A file yields what its text gives, whatever else is in it and with the last of repeated
members, or an error that names what fails first.  The limit of a run is a positive integer. -/
theorem ResolvedConfig.resolution :
    (∀ (projectPath userPath : String) (project user : ConfigFile), project ≠ .absent →
      project.Decides .project projectPath (resolve projectPath userPath project user) ∧
        ∀ userPath' user', resolve projectPath userPath' project user' =
          resolve projectPath userPath project user) ∧
    (∀ (projectPath userPath : String) (user : ConfigFile), user ≠ .absent →
      user.Decides .user userPath (resolve projectPath userPath .absent user)) ∧
    (∀ projectPath userPath : String,
      resolve projectPath userPath .absent .absent = .ok ⟨⟨1, 512⟩, .default, none⟩) ∧
    (∀ text root, Json.read text = .ok root → Config.read text = Config.ofJson (Config.known root)) ∧
    (∀ cs r members, Json.readValue cs = .ok r → r.value = .object members →
      ∃ rest listed, cs = '\x7b' :: rest ∧ Json.Lists rest listed ∧
        ∀ name, Json.member? name members = Json.lastListed name listed) ∧
    ∀ (around : Surroundings) (t : FileTree),
      (∃ e, around.resolved t = .error e ∧ around.callDepth t none = .error e) ∨
      ∃ r limit, around.resolved t = .ok r ∧ around.callDepth t none = .ok limit ∧
        0 < r.config.maxCallDepth ∧ limit.number.toInt? = some (r.config.maxCallDepth : Int) := by
  refine ⟨fun projectPath userPath project user h => ⟨?_, fun userPath' user' => ?_⟩,
    fun projectPath userPath user h => ?_, fun _ _ => rfl, ?_, ?_, ?_⟩
  · exact ConfigFile.decides_of_load (resolve_project projectPath userPath h user)
  · have hproject := resolve_project projectPath userPath h user
    have hproject' := resolve_project projectPath userPath' h user'
    exact Option.some.inj (hproject'.symm.trans hproject)
  · exact ConfigFile.decides_of_load (resolve_user projectPath userPath h)
  · intro text root hroot
    rw [Config.read, hroot, Config.ofJson_known]
  · intro cs r members hr hmembers
    obtain ⟨rest, listed, hcs, hlists, rfl⟩ := Json.lists_of_readValue hr hmembers
    exact ⟨rest, listed, hcs, hlists, fun name => Json.member?_settle name listed⟩
  · intro around t
    rw [Surroundings.callDepth_none]
    cases hresolved : around.resolved t with
    | error e => exact .inl ⟨e, rfl, rfl⟩
    | ok r =>
        obtain ⟨hpositive, hinteger⟩ := limit_of_resolve hresolved
        refine .inr ⟨r, .ofInt r.config.maxCallDepth, rfl, rfl, hpositive, ?_⟩
        rw [DepthLimit.ofInt, hinteger]

/-- A configuration with a repeated version and a member that no check looks at. -/
def ConfigFile.repeating : List Char :=
  "\x7b\"version\": 2, \"x\": [], \"limits\": \x7b\"maxCallDepth\": 7\x7d, \"version\": 3\x7d".toList

/-- The last version counts, for the project as for the user, and the other member does not. -/
theorem ResolvedConfig.resolution_of_repeated_version :
    (∀ user, resolve "p" "u" (.text ConfigFile.repeating) user =
      .ok ⟨⟨3, 7⟩, .project, some "p"⟩) ∧
    resolve "p" "u" .absent (.text ConfigFile.repeating) = .ok ⟨⟨3, 7⟩, .user, some "u"⟩ ∧
    ∃ root rest listed, Config.ofJson (Config.known root) = .ok ⟨3, 7⟩ ∧
      Json.skipSpace ConfigFile.repeating = '\x7b' :: rest ∧ Json.Lists rest listed ∧
      ConfigPlace.version.find? root = Json.lastListed "version" listed := by
  obtain ⟨hproject, huser, -, hknown, hlast, -⟩ := ResolvedConfig.resolution
  have hread : Config.read ConfigFile.repeating = .ok ⟨3, 7⟩ := by decide +kernel
  obtain ⟨root, hroot, haccepts⟩ := Config.read_ok_iff.mp hread
  obtain ⟨r, hr, hvalue⟩ := Json.readValue_of_read hroot
  refine ⟨fun user => ?_, ?_, ?_⟩
  · exact ((hproject "p" "u" (.text ConfigFile.repeating) user (by simp)).1.ok_iff _).mpr
      ⟨_, root, rfl, hroot, haccepts, rfl, rfl⟩
  · exact ((huser "p" "u" (.text ConfigFile.repeating) (by simp)).ok_iff _).mpr
      ⟨_, root, rfl, hroot, haccepts, rfl, rfl⟩
  · cases root with
    | object members =>
        obtain ⟨rest, listed, hopen, hlists, hlisted⟩ := hlast _ r members hr hvalue
        exact ⟨.object members, rest, listed, (hknown _ _ hroot).symm.trans hread, hopen, hlists,
          hlisted "version"⟩
    | _ =>
        exact absurd ⟨_, .object, rfl, List.mem_cons_self, fun ⟨_, h⟩ => Json.noConfusion h⟩
          (haccepts.checks .root)

end NestedPascal
