import TagLang.Compile
import TagLang.Config
import TagLang.FileTree

/-! # Projects

A project has a configuration file in one of its directories, which is looked for from a starting
directory upwards.
-/

namespace TagLang

inductive ConfigError
  | notFound
  | unreadable
  | malformed
deriving DecidableEq, Repr, Inhabited

inductive ProjectError
  | config (e : ConfigError)
  | catalog
deriving DecidableEq, Repr, Inhabited

def ProjectError.code : ProjectError → String
  | .config _ => "E0901"
  | .catalog => "E0902"

namespace Project

def configName : String := "calor.toml"

def configOf : Except FileError String → Except ConfigError Config
  | .error .missing => .error .notFound
  | .error .unreadable => .error .unreadable
  | .ok text =>
    match Config.parse? text with
    | some c => .ok c
    | none => .error .malformed

def load (t : FileTree) (path : String) : Except ConfigError Config :=
  configOf (t.read (Path.join [] path))

/-- The nearest directory with a configuration file, from a directory upwards, and its
configuration. A start that begins with a slash is not below the root, and nothing is found from
there. -/
def discover (t : FileTree) (start : String) : Except ConfigError (Option (Path × Config)) :=
  if start.startsWith "/" then .ok none
  else match (Path.ofText start).upwards.find? fun d => t.isFile (d ++ [configName]) with
    | none => .ok none
    | some d => do return some (d, ← configOf (t.read (d ++ [configName])))

def optionsOf (t : FileTree) (root : Path) (c : Config) : Except ProjectError Options := do
  let (catalog, errors) ← match c.stubs with
    | none => pure (Catalog.builtin, [])
    | some path =>
      match t.read (root.join path) with
      | .ok text => pure (Catalog.builtin.load text)
      | .error _ => throw .catalog
  return {
    catalog
    catalogErrors := errors
    effects := c.effects
    coverage := c.coverage
    verify := c.verify
    solver := c.solver
    timeout := c.timeout }

def options (t : FileTree) (start : String) : Except ProjectError Options :=
  match discover t start with
  | .error e => .error (.config e)
  | .ok none => .ok {}
  | .ok (some (root, c)) => optionsOf t root c

end Project

end TagLang
