/-
# Settings of a session

Settings are read from a TOML document. Every setting may be left out and then
has its default; a key that names no setting is an error, and so is a value of
the wrong kind. An encoding is given by its name, or by a table whose only key is
the name and whose only value is empty.

Reading settings is the outer layer of the library. What is proved about sessions
starts from settings that were read.
-/

import CodeInsight.Query.Snapshot
import CodeInsight.Text.ColumnEncoding
import CodeInsight.Toml.Table

namespace CodeInsight

/-- What the documents of a session have in common. -/
structure Settings where
  /-- The milliseconds that pass before an analysis starts. -/
  debounceMs : UInt64
  positionEncoding : ColumnEncoding
  /-- Whether built-in names are offered among the visible ones. -/
  includeBuiltins : Bool
  deriving DecidableEq, Repr

/-- Why settings could not be read. -/
inductive SettingsError where
  /-- The document is no TOML. -/
  | malformed
  /-- A key names no setting. -/
  | unknownKey (key : String)
  /-- A setting has a value it cannot have. -/
  | invalidValue (key : String)
  deriving DecidableEq, Repr

/-- What the host is told. -/
def SettingsError.message : SettingsError → String
  | .malformed => "the document is malformed"
  | .unknownKey key => "unknown setting " ++ key
  | .invalidValue key => "invalid value of setting " ++ key

namespace Settings

/-- Analysis starts at once, columns are units of UTF-16, and built-in names are offered. -/
def default : Settings := ⟨0, .utf16, true⟩

instance : Inhabited Settings := ⟨default⟩

/-- What a host with these settings prefers to be offered. -/
def preferences (s : Settings) : Preferences := ⟨s.includeBuiltins⟩

/-- An integer of 64 bits without sign. -/
def unsigned? : Toml.Value → Option UInt64
  | .integer value => if 0 ≤ value ∧ value < UInt64.size then some (.ofNat value.toNat) else none
  | _ => none

/-- An encoding by its name. -/
def encoding? : Toml.Value → Option ColumnEncoding
  | .string name => ColumnEncoding.ofName? name
  | .table [(name, .table [])] => ColumnEncoding.ofName? name
  | .table [(name, .array [])] => ColumnEncoding.ofName? name
  | _ => none

/-- A truth value. -/
def boolean? : Toml.Value → Option Bool
  | .boolean value => some value
  | _ => none

/-- The settings with one of them changed. -/
def set (s : Settings) (key : String) (value : Toml.Value) : Except SettingsError Settings :=
  let changed? : Except SettingsError (Option Settings) := match key with
    | "debounce_ms" => .ok ((unsigned? value).map fun debounceMs => { s with debounceMs })
    | "position_encoding" =>
      .ok ((encoding? value).map fun positionEncoding => { s with positionEncoding })
    | "include_builtins" =>
      .ok ((boolean? value).map fun includeBuiltins => { s with includeBuiltins })
    | _ => .error (.unknownKey key)
  match changed? with
  | .ok (some changed) => .ok changed
  | .ok none => .error (.invalidValue key)
  | .error e => .error e

/-- Reads settings from a TOML document. -/
def ofToml (document : String) : Except SettingsError Settings :=
  match Toml.parse? document with
  | none => .error .malformed
  | some entries => entries.foldlM (fun s entry => s.set entry.1 entry.2) default

end Settings

end CodeInsight
