import MixedSignal.FixedPoint
import MixedSignal.Settings.Toml

/-!
# Settings

The settings of a compilation, all of them optional in a settings file.
-/

namespace MixedSignal

/-- Why a file cannot be read or written. -/
inductive FileError where
  | notFound
  | isFolder
  | nameTooLong
  | zeroByte
  deriving DecidableEq, Repr

/-- The reason as messages show it. -/
def FileError.text : FileError → String
  | notFound => "No such file or directory (os error 2)"
  | isFolder => "Is a directory (os error 21)"
  | nameTooLong => "File name too long (os error 36)"
  | zeroByte => "file name contained an unexpected NUL byte"

/-- The settings of a compilation. -/
structure Settings where
  /-- The width of real signals that have none of their own. -/
  realWidth : Nat := 25
  defaultClock : String := "`CLK_MSDSL"
  defaultReset : String := "`RST_MSDSL"
  defaultEnable : String := "1'b1"
  timescale : String := "1ns/1ps"
  includes : List String := ["svreal.sv", "msdsl.sv"]
  deriving DecidableEq, Repr

/-- Why settings are refused. -/
inductive SettingsError where
  | malformed
  | unreadable (path : String) (reason : FileError)
  /-- Fixed-point reals have a sign and at least one more bit, and fit in 64 bits. -/
  | realWidth (width : Nat)
  deriving DecidableEq, Repr

/-- The text of an error. -/
def SettingsError.message : SettingsError → String
  | malformed => "malformed settings"
  | unreadable path reason => "failed to read " ++ path ++ ": " ++ reason.text
  | realWidth width => s!"real_width must be between 2 and {FixedPoint.maxWidth}, got {width}"

namespace Settings

/-- Check the width of reals. -/
def validate (s : Settings) : Except SettingsError Unit :=
  if 2 ≤ s.realWidth ∧ s.realWidth ≤ FixedPoint.maxWidth then .ok ()
  else .error (.realWidth s.realWidth)

/-- The settings with the value of a key replaced, unless key or type is unknown. Widths are 64-bit
words. -/
def set? (s : Settings) : String → Toml.Item → Option Settings
  | "real_width", .int v =>
    if 0 ≤ v ∧ v < Int.pow 2 64 then some { s with realWidth := v.toNat } else none
  | "default_clock", .text t => some { s with defaultClock := t }
  | "default_reset", .text t => some { s with defaultReset := t }
  | "default_ce", .text t => some { s with defaultEnable := t }
  | "timescale", .text t => some { s with timescale := t }
  | "includes", .texts ts => some { s with includes := ts }
  | _, _ => none

/-- The settings of a document. -/
def ofToml (text : String) : Except SettingsError Settings := do
  let some entries := Toml.parse? text | throw .malformed
  let some s := entries.foldlM (fun s (k, v) => s.set? k v) ({} : Settings) | throw .malformed
  s.validate
  return s

/-- The settings of a file with the given contents, if it exists. -/
def ofFile (path : String) (contents : Option String) : Except SettingsError Settings :=
  match contents with
  | some text => ofToml text
  | none => .error (.unreadable path .notFound)

end Settings

end MixedSignal
