import ModuleExports.Toml.Document

/-!
The settings of a resolution, which a TOML document may give. Keys that mean nothing here are passed
over.
-/
namespace ModuleExports

structure Settings where
  /-- Warn of what an export list names more than once. -/
  reportDuplicateRefs : Bool := true
  /-- Warn of an explicit import that hides open ones. -/
  reportShadowing : Bool := true
  /-- At most so many modules of a layer are resolved at once. -/
  maxParallel : UInt64 := 4
  deriving DecidableEq, Inhabited

/-- At least one module is resolved at a time. -/
def Settings.clamped (c : Settings) : Settings := { c with maxParallel := max 1 c.maxParallel }

/-- Why settings could not be loaded: their file could not be read as text, or the text is not the
settings. -/
inductive SettingsError where
  | read | parse
  deriving DecidableEq, Inhabited

def SettingsError.message : SettingsError → String
  | read => "Failed to read config"
  | parse => "Failed to parse config"

namespace Settings
open Toml

/-- The boolean under a key, or the default where the key is missing. -/
def flag? (es : Entries) (key : String) (default : Bool) : Option Bool :=
  match es.lookup key with
  | none => some default
  | some (.scalar (.boolean b)) => some b
  | some _ => none

/-- The natural number under a key, or the default where the key is missing. -/
def count? (es : Entries) (key : String) (default : UInt64) : Option UInt64 :=
  match es.lookup key with
  | none => some default
  | some (.scalar (.integer n)) => if 0 ≤ n then some (.ofNat n.toNat) else none
  | some _ => none

def ofEntries? (es : Entries) : Option Settings := do
  return ⟨← flag? es "report_duplicate_refs" true, ← flag? es "report_scope_shadowing" true,
    ← count? es "max_parallel_modules" 4⟩

def parse (text : String) : Except SettingsError Settings :=
  match (Toml.read? text).bind ofEntries? with
  | some c => .ok c.clamped
  | none => .error .parse

/-- From the bytes of a file, if there is one. -/
def load (file : Option ByteArray) : Except SettingsError Settings :=
  match file.bind String.fromUTF8? with
  | some text => parse text
  | none => .error .read

end Settings

end ModuleExports
