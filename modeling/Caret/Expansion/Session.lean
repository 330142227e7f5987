import Caret.Error
import Caret.Expansion.Cache
import Caret.Expansion.Output
import Caret.Toml.Value

/-!
A run of expansions that share what the engine keeps and the settings it goes by. Settings are
loaded for the first expansion and stay as they are until the session is invalidated.
-/

namespace Caret.Expansion

structure Request (α : Type) where
  cache : Cache α
  context : Context
  output : Output

/-- Turns an abbreviation into text, and may change the cache whether it does so or fails. -/
abbrev Engine (α : Type) := String → Request α → Toml.Table → Except Error String × Cache α

abbrev EngineM (m : Type → Type) (α : Type) :=
  String → Request α → Toml.Table → m (Except Error String × Cache α)

structure Session (α : Type) where
  cache : Cache α := {}
  settings : Option Toml.Table := none

namespace Session

variable {α : Type} {m : Type → Type} [Monad m]

def settle (load : m Toml.Table) (s : Session α) : m (Toml.Table × Session α) :=
  match s.settings with
  | some t => return (t, s)
  | none => do
    let t ← load
    return (t, { s with settings := some t })

def expandM (engine : EngineM m α) (load : m Toml.Table) (abbreviation : String) (config : Config)
    (s : Session α) : m (Except Error String × Session α) := do
  let (settings, s) ← s.settle load
  let request : Request α := ⟨s.cache, config.context, config.output⟩
  let (answer, cache) ← engine abbreviation request settings
  return (answer, { s with cache })

def expand (engine : Engine α) (load : m Toml.Table) (abbreviation : String) (config : Config)
    (s : Session α) : m (Except Error String × Session α) :=
  s.expandM (fun abbreviation request settings => pure (engine abbreviation request settings)) load
    abbreviation config

def invalidate (_ : Session α) : Session α := {}

end Session

end Caret.Expansion
