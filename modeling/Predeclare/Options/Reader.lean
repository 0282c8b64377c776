import Predeclare.Lowering.Identifier
import Predeclare.Options.Toml.Document

set_option relaxedAutoImplicit false
set_option autoImplicit false

/-!
# Options

Options are set by the entries of a flat TOML document. An option that no entry sets keeps its
default; an entry for something that is not an option is an error.

## Main definitions

* `CompilerOptions`, `CompilerOptions.default` — everything that can be set for a compilation.
* `CompilerOptions.set?` — the options after one entry.
* `CompilerOptions.ofToml`, `CompilerOptions.ofFile` — options from a document and from a file.
* `OptionsError` — why there are none, with the explanations given to the user.
-/

namespace Predeclare

/-- What can be set for a compilation. -/
structure CompilerOptions extends LowerOptions where
  /-- Whether builtin names are lowered in their own way. -/
  builtins : Bool := true
  deriving DecidableEq, Repr

/-- The options of a compilation for which nothing is set. -/
def CompilerOptions.default : CompilerOptions := {}

/-- Why options could not be read. -/
inductive OptionsError where
  /-- The document is malformed, or sets something that is not an option. -/
  | malformed
  /-- The file cannot be read as text. -/
  | unreadableFile (name : String)
  /-- The text of the file is malformed. -/
  | malformedFile (name : String)
  deriving DecidableEq, Repr

namespace OptionsError

/-- The explanations of an error, from the outermost to the innermost. -/
def contexts : OptionsError → List String
  | malformed => ["Failed to parse compiler options"]
  | unreadableFile name => ["Failed to read compiler options: " ++ name]
  | malformedFile name =>
    ["Failed to load compiler options: " ++ name, "Failed to parse compiler options"]

/-- The wording of an error. -/
def message (e : OptionsError) : String := e.contexts.head?.getD ""

end OptionsError

namespace CompilerOptions

/-- The options after one entry of a document. -/
def set? (options : CompilerOptions) (entry : String × Toml.Value) : Option CompilerOptions :=
  match entry with
  | ("runtime_library", .text name) => some { options with runtimeLibrary := name }
  | ("package_version", .text version) => some { options with packageVersion := some version }
  | ("builtin_macros", .flag b) => some { options with builtins := b }
  | _ => none

/-- The options that a document sets. -/
def ofToml (document : String) : Except OptionsError CompilerOptions :=
  match (Toml.parse? document).bind fun entries => entries.foldlM set? .default with
  | some options => .ok options
  | none => .error .malformed

/-- The options that a file sets; a file that does not exist has no content. -/
def ofFile (name : String) (content : Option ByteArray) : Except OptionsError CompilerOptions :=
  match content.bind String.fromUTF8? with
  | none => .error (.unreadableFile name)
  | some document => (ofToml document).mapError fun _ => .malformedFile name

end CompilerOptions

end Predeclare
