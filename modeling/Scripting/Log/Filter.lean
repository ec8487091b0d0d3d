import Scripting.Log.Event

/-!
# Which events a log shows

* `Filter` : the level up to which events are shown, if any are;
* `Filter.ofText?` : a filter written as a level, or as a target and a level;
* `Filter.choose` : the filter of a command, taken from its option, else from the environment.
-/

namespace Scripting

set_option autoImplicit false

/-- The level with a name, in letters of any case. -/
def Level.ofName? (name : String) : Option Level :=
  match name.toLower with
  | "error" => some error
  | "warn" => some warn
  | "info" => some info
  | "debug" => some debug
  | "trace" => some trace
  | _ => none

/-- Which events a log shows: those up to a level, or none. -/
structure Filter where
  level : Option Level
  deriving DecidableEq, Repr

namespace Filter

/-- The filter that lets nothing pass. -/
def off : Filter := ⟨none⟩

/-- The target whose events a log shows. -/
def target : String := "zunu"

/-- Whether the log shows an event. -/
def shows (f : Filter) (e : Event) : Bool :=
  match f.level with
  | some level => e.level.rank ≤ level.rank
  | none => false

/-- The filter that a level writes, or the word that switches the log off. -/
def ofLevel? (name : String) : Option Filter :=
  if name.toLower = "off" then some off else (Level.ofName? name).map fun level => ⟨some level⟩

/-- The filter that a text writes: a level, a target with a level, or a target alone for all of its
events. Events have one target only, so a filter for another one lets nothing pass. -/
def ofText? (text : String) : Option Filter :=
  match text.splitOn "=" with
  | [word] => (ofLevel? word).or (some (if word = target then ⟨some .trace⟩ else off))
  | [name, level] => (ofLevel? level).map fun f => if name = target then f else off
  | _ => none

/-- The names of the variableNames that may hold a filter, the one that counts most first. -/
def variableNames : List String := ["ZUNU_LOG", "RUST_LOG"]

/-- The filter of a command: the one of its option, else the first that a variable holds, else
warnings. -/
def choose (option : Option String) (environment : String → Option String) : Filter :=
  match option with
  | some text => (ofText? text).getD off
  | none =>
    (variableNames.findSome? fun name => environment name >>= ofText?).getD ⟨some .warn⟩

end Filter

end Scripting
