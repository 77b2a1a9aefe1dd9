import Shiba.Proofs.Lockstep.Stmt
import Shiba.Proofs.NormalPath
import Shiba.Proofs.TopLevel

/-!
# What an import finds

An import that finds a file goes by the key of the file, the normal form of its path without the ending.
A registered key is answered at once.  Otherwise the file is read; a file that cannot be read is an error,
and any other is registered and then run.

* `importModule_of_registered`: nothing is run by an import whose key is registered.
* `importModule_of_unregistered`: what becomes of any other file.
-/

namespace Shiba

/-! ## Files -/

namespace FileSystem

variable {files : FileSystem}

/-- A path that leads to a file leads to one that is there. -/
theorem mem_of_follow (parts place : List String) {text : String}
    (leads : files.follow parts place = .ok (.file text)) :
    ∃ place, (place, .file text) ∈ files.nodes := by
  fun_induction follow files parts place with
  | case1 place node found =>
    cases leads
    rw [node?] at found
    split at found
    · cases found
    · obtain ⟨⟨place', node⟩, isFirst, same⟩ := Option.map_eq_some_iff.1 found
      cases same
      exact ⟨place', List.mem_of_find?_eq_some isFirst⟩
  | case2 | case3 | case4 | case5 | case8 => cases leads
  | case6 _ _ _ _ _ ih | case7 _ _ _ _ ih | case9 _ _ _ _ _ _ _ ih => exact ih leads

/-- What the files that are there hold when they are read. -/
def contents (files : FileSystem) : List String :=
  files.nodes.filterMap fun
    | (_, .file text) => some (.ofList (newlines text.toList))
    | _ => none

theorem mem_contents_of_read {path content : String} (isRead : files.read path = .ok content) :
    content ∈ files.contents := by
  rw [read] at isRead
  split at isRead
  · next text found =>
    cases isRead
    rw [lookup] at found
    split at found
    · cases found
    · obtain ⟨place, member⟩ := mem_of_follow _ _ found
      exact List.mem_filterMap.2 ⟨(place, .file text), member, rfl⟩
  · cases isRead
  · cases isRead
  · cases isRead

end FileSystem

namespace Eval

variable {cfg : Config} {ctx : Context} {name path content : String} {s : State} {m : ModuleId}
  {calls : Nat}

/-! ## Keys -/

/-- The normal form of the path of the file that an import by the module of `ctx` finds. -/
def importedPath? (cfg : Config) (ctx : Context) (name : String) (s : State) : Option String :=
  (findFile cfg.files name [(s.registry.module ctx.module).directory, cfg.standardDirectory]).map
    Path.normalize

theorem hasExtension_of_findFile {files : FileSystem} {directories : List String}
    (found : findFile files name directories = some path) : Path.HasExtension path := by
  induction directories with
  | nil => cases found
  | cons directory rest ih =>
    obtain ⟨rfl, _⟩ | later := findFile_cons found
    · exact (Path.hasExtension_withExtension name).join directory
    · exact ih later

/-- The key of a module file is the normal form of its path without the ending. -/
theorem keyOfFile_eq (ends : Path.HasExtension path) :
    keyOfFile path = Path.dropExtension (Path.normalize path) := by
  rw [← Path.join_split_normalize ends, keyOfFile]

/-- A main module that is read from a file has the key that imports of this file look for. -/
theorem key_of_file {files : FileSystem} {directory : String} {M : Module}
    (isRead : Run.file files directory path = .ok M) :
    M.key = Path.dropExtension (Path.absolute directory (Path.withExtension path)) := by
  have ends := ((Path.hasExtension_withExtension path).join directory).normalize
  rw [Run.file] at isRead
  cases content : files.read (Path.absolute directory (Path.withExtension path)) with
  | error failure => simp [content, bind, Except.bind] at isRead
  | ok text =>
    simp only [content, bind, Except.bind, pure, Except.pure, Except.ok.injEq] at isRead
    rw [← isRead, key_moduleOfFile, Path.absolute, keyOfFile_eq ends, Path.normalize_normalize]

/-- No file has the key of a module that no file holds. -/
theorem keyOfFile_ne_host (ends : Path.HasExtension path) : keyOfFile path ≠ "<host>/math" := by
  obtain ⟨front, chars⟩ := ends.normalize
  rw [keyOfFile_eq ends, Path.dropExtension_of_toList chars.symm]
  -- a path in normal form begins with a slash
  have slash : ∃ rest, front ++ Path.extension.toList = '/' :: rest := by
    rw [chars, Path.normalize, String.toList_append]
    rcases Path.leading_eq path with slashes | slashes <;> rw [slashes] <;> exact ⟨_, rfl⟩
  obtain ⟨rest, begins⟩ := slash
  intro same
  have front_eq := congrArg String.toList same
  rw [String.toList_ofList] at front_eq
  rw [front_eq] at begins
  cases begins

/-! ## Loading -/

theorem loadFile_of_registered (found : s.registry.find? (keyOfFile path) = some m) :
    ∃ lines, ∀ ev, loadFile ev cfg calls path s = (.ok m, { s with output := lines }) := by
  obtain ⟨lines, traced⟩ := trace_eq (s := s) cfg 1
    (return "module " ++ keyOfFile path ++ " is already loaded") rfl
  refine ⟨lines, fun ev => ?_⟩
  rw [loadFile, bind_ok (run_get s)]
  simp only [found]
  rw [bind_ok traced]
  rfl

theorem loadFile_of_unreadable {failure : AccessError}
    (fresh : s.registry.find? (keyOfFile path) = none) (fails : cfg.files.read path = .error failure)
    (ev : Evaluators) :
    loadFile ev cfg calls path s = (.error (.ofCause (.moduleUnreadable path failure)), s) := by
  rw [loadFile, bind_ok (run_get s)]
  simp only [fresh, fails]
  rfl

theorem loadFile_of_readable (fresh : s.registry.find? (keyOfFile path) = none)
    (isRead : cfg.files.read path = .ok content) (ev : Evaluators) :
    loadFile ev cfg calls path s =
      runLoaded ev cfg calls (moduleOfFile path content) s.registry.next
        (s.load (moduleOfFile path content)) := by
  rw [loadFile, bind_ok (run_get s)]
  simp only [fresh, isRead]
  rw [bind_ok (Discipline.Agree.run_addModule s _)]

/-! ## Imports -/

theorem importModule_of_findFile
    (isFile : findFile cfg.files name
      [(s.registry.module ctx.module).directory, cfg.standardDirectory] = some path)
    (ev : Evaluators) :
    importModule ev cfg ctx name s = loadFile ev cfg ctx.calls path s := by
  rw [importModule, bind_ok (run_get s)]
  simp only [isFile]

theorem importModule_of_path (found : importedPath? cfg ctx name s = some path) :
    ∃ file, findFile cfg.files name
        [(s.registry.module ctx.module).directory, cfg.standardDirectory] = some file ∧
      keyOfFile file = Path.dropExtension path ∧
      ∀ ev, importModule ev cfg ctx name s = loadFile ev cfg ctx.calls file s := by
  obtain ⟨file, isFile, rfl⟩ := Option.map_eq_some_iff.1 found
  exact ⟨file, isFile, keyOfFile_eq (hasExtension_of_findFile isFile), importModule_of_findFile isFile⟩

/-- The import of a file whose key is registered answers the module there, whatever the evaluators
would do. -/
theorem importModule_of_registered (found : importedPath? cfg ctx name s = some path)
    (registered : s.registry.find? (Path.dropExtension path) = some m) :
    ∃ lines, ∀ ev, importModule ev cfg ctx name s = (.ok m, { s with output := lines }) := by
  obtain ⟨file, -, key, loads⟩ := importModule_of_path found
  rw [← key] at registered
  obtain ⟨lines, loaded⟩ := loadFile_of_registered registered
  exact ⟨lines, fun ev => (loads ev).trans (loaded ev)⟩

/-- The import of any other file fails when the file cannot be read, and registers its module and then
runs it when it can. -/
theorem importModule_of_unregistered (found : importedPath? cfg ctx name s = some path)
    (fresh : s.registry.find? (Path.dropExtension path) = none) :
    (∃ file failure, cfg.files.read file = .error failure ∧ ∀ ev, importModule ev cfg ctx name s =
      (.error (.ofCause (.moduleUnreadable file failure)), s)) ∨
    ∃ file content, cfg.files.read file = .ok content ∧
      (moduleOfFile file content).key = Path.dropExtension path ∧
      ∀ ev, importModule ev cfg ctx name s =
        runLoaded ev cfg ctx.calls (moduleOfFile file content) s.registry.next
          (s.load (moduleOfFile file content)) := by
  obtain ⟨file, -, key, loads⟩ := importModule_of_path found
  rw [← key] at fresh
  cases isRead : cfg.files.read file with
  | error failure =>
    exact .inl ⟨file, failure, isRead, fun ev => (loads ev).trans (loadFile_of_unreadable fresh isRead ev)⟩
  | ok content =>
    exact .inr ⟨file, content, isRead, (key_moduleOfFile _ _).trans key,
      fun ev => (loads ev).trans (loadFile_of_readable fresh isRead ev)⟩

end Eval

end Shiba
