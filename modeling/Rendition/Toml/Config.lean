import Rendition.Config
import Rendition.Toml.Parser

/-!
# Configuration files

The settings are kept in the table `transpile` of a configuration file. A file without that table
leaves every setting at its default; other tables and keys are ignored.

## Main definitions

* `ConfigError`: Why a file has no settings.
* `Config.ofToml`: The settings in a text.
* `Config.ofFile`: The settings in the bytes of a file.
-/

namespace Rendition

/-- Why a file has no settings. -/
inductive ConfigError where
  /-- The file does not exist or holds no text. -/
  | unreadable
  /-- The text is malformed, or a setting is not of its type. -/
  | malformed
  deriving DecidableEq

namespace Config

/-- The settings in a text. -/
def ofToml (text : String) : Except ConfigError Config :=
  match Toml.parse? text with
  | none => .error .malformed
  | some document =>
    match document.field? "transpile" with
    | none => .ok {}
    | some table =>
      match decode? table with
      | some config => .ok config
      | none => .error .malformed

/-- The settings in the bytes of a file, if there is one. -/
def ofFile : Option (List UInt8) → Except ConfigError Config
  | none => .error .unreadable
  | some bytes =>
    match String.fromUTF8? ⟨bytes.toArray⟩ with
    | none => .error .unreadable
    | some text => ofToml text

end Config

end Rendition
