import MarkupSync.Json.Options
import MarkupSync.Session.Basic

/-!
# Projects

A project is configured by a file of its own and by the `.prettierrc` that other tools read. Both
can be missing.

* `Config`, `Config.toJson`, `Config.ofJson?`: the configuration file;
* `Prettier`, `Prettier.apply`: what the other file says about formatting;
* `Config.load?`: the configuration of the project in a folder;
* `Config.settings`: the settings of its sessions;
* `Project`, `Project.load?`: a folder and its configuration;
* `Project.session?`: a session of one of its files.
-/

namespace MarkupSync

/-! ## Configuration -/

/-- How a project is worked on. Times are in milliseconds. -/
structure Config where
  window : Nat := 150
  budget : Nat := 100
  backup : Bool := true
  options : FormatOptions := { quote := .single }
  decoration : Decoration := .standard
  /-- Whether changes that others make of opened files are followed. -/
  watch : Bool := true
  deriving Repr, DecidableEq

/-- What is said about formatting for other tools. -/
structure Prettier where
  width : Option Nat
  useTabs : Option Bool
  singleQuote : Option Bool
  deriving Repr, DecidableEq

namespace Prettier

/-- What a value says. -/
def ofJson? (j : Json) : Option Prettier := do
  let r ← j.record? ["tabWidth", "useTabs", "singleQuote"]
  return ⟨← r.nullable? "tabWidth" Json.nat?, ← r.nullable? "useTabs" Json.bool?,
    ← r.nullable? "singleQuote" Json.bool?⟩

/-- Options with what is said applied. Double quotes are the default here. -/
def apply (p : Prettier) (o : FormatOptions) : FormatOptions :=
  { o with
    indentWidth := p.width.getD o.indentWidth
    useTabs := p.useTabs.getD o.useTabs
    quote := if p.singleQuote = some true then .single else .double }

end Prettier

/-- Why a project has no configuration. -/
inductive ConfigError
  | unreadable (path : Text)
  | invalid (path : Text)
  deriving Repr, DecidableEq

/-- The wording of an error. -/
def ConfigError.message : ConfigError → String
  | unreadable path => "Failed to read " ++ String.ofList path
  | invalid path => "Invalid JSON in " ++ String.ofList path

/-- What the value in a file stands for; none if there is no such file. -/
def Folder.readJson? {α : Type} (f : Folder) (path : Text) (ofJson? : Json → Option α) :
    Except ConfigError (Option α) :=
  match f.get? path with
  | none => .ok none
  | some .folder => .error (.unreadable path)
  | some (.file content) =>
    match (Json.ofText? content).bind ofJson? with
    | none => .error (.invalid path)
    | some a => .ok (some a)

namespace Config

/-- A configuration as a value. -/
def toJson (c : Config) : Json :=
  .object [Json.entry "debounceMs" (.ofNat c.window), Json.entry "latencyBudgetMs" (.ofNat c.budget),
    Json.entry "backup" (.bool c.backup), Json.entry "format" c.options.toJson,
    Json.entry "artifacts" c.decoration.toJson, Json.entry "watch" (.bool c.watch)]

/-- The configuration that a value stands for. -/
def ofJson? (j : Json) : Option Config := do
  let r ← j.record? ["debounceMs", "latencyBudgetMs", "backup", "format", "artifacts", "watch"]
  let d : Config := {}
  return ⟨← r.orElse? "debounceMs" Json.nat? d.window,
    ← r.orElse? "latencyBudgetMs" Json.nat? d.budget, ← r.orElse? "backup" Json.bool? d.backup,
    ← r.orElse? "format" FormatOptions.ofJson? d.options,
    ← r.orElse? "artifacts" Decoration.ofJson? d.decoration,
    ← r.orElse? "watch" Json.bool? d.watch⟩

/-- The file that other tools read. -/
def prettierName : Text := ".prettierrc".toList

/-- The configuration of a project in a folder, whose own file is called `name`. -/
def load? (name : Text) (root : Folder) : Except ConfigError Config :=
  match root.readJson? name ofJson? with
  | .error e => .error e
  | .ok own =>
    let config := own.getD {}
    match root.readJson? prettierName Prettier.ofJson? with
    | .error e => .error e
    | .ok none => .ok config
    | .ok (some p) => .ok { config with options := p.apply config.options }

/-- The settings of a project's sessions. -/
def settings (c : Config) : Settings :=
  { options := c.options
    decoration := c.decoration
    write := { backup := c.backup }
    window := c.window
    budget := c.budget }

end Config

/-! ## Projects -/

/-- A folder and its configuration. -/
structure Project where
  root : Folder
  config : Config
  deriving Repr

/-- Why a file of a project cannot be opened. -/
inductive ProjectError
  | config (e : ConfigError)
  | sync (e : SyncError)
  deriving Repr, DecidableEq

/-- The wording of an error. -/
def ProjectError.message : ProjectError → String
  | config e => "Config error: " ++ e.message
  | sync e => "Sync error: " ++ e.message

namespace Project

/-- The project in a folder, whose configuration file is called `name`. -/
def load? (name : Text) (root : Folder) : Except ProjectError Project :=
  match Config.load? name root with
  | .error e => .error (.config e)
  | .ok config => .ok ⟨root, config⟩

/-- A session of a file of the project. -/
def session? (p : Project) (path : Text) (canvas : Canvas) : Except ProjectError Session :=
  match Session.load? p.config.settings path canvas p.root with
  | .error e => .error (.sync e)
  | .ok session => .ok session

end Project

end MarkupSync
