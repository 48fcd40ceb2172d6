import ContentSdl.Host.Customization

/-! # The command line -/

namespace ContentSdl

/-- Nothing is named, the configuration file cannot be read, or the host fails. -/
inductive CommandError where
  | usage
  | file (e : FileError)
  | host (e : HostError)
  deriving DecidableEq, Repr

namespace CommandError

def message : CommandError → String
  | .usage => "usage: generate <content_types.json> [config.json]"
  | .file e => e.message
  | .host e => e.message

end CommandError

/-- What goes to standard output, and the summary that goes to standard error. -/
structure CommandOutput where
  stdout : String
  summary : String
  deriving DecidableEq, Repr

namespace Report

def summary (r : Report) : String :=
  toString r.contentTypes ++ " content types, " ++ toString r.references.length ++ " references, " ++
    toString r.files.length ++ " file fields, " ++ toString r.skipped.length ++ " skipped"

end Report

/-- The configuration of a file, or the default one. -/
def commandConfig : Option FileContent → Except CommandError Config
  | none => .ok {}
  | some content => do
    let text ← content.text.mapError .file
    (Config.ofText text).mapError (.host ∘ .config)

/-- Prints the types of the content types of the first file, as the second configures them; generation
is enabled whatever the configuration says. -/
def runCommand : List FileContent → Except CommandError CommandOutput
  | [] => .error .usage
  | content :: rest => do
    let config ← commandConfig rest.head?
    let outcome := customize config.enable (.file content)
    let report ← outcome.result.mapError .host
    return ⟨(SchemaDocument.apply {} outcome).text ++ "\n", report.summary⟩

/-- How the program ends: its exit code, what it has printed, and the summary or the reason that it
gives besides. -/
structure Ending where
  code : UInt32
  stdout : String
  remark : String
  deriving DecidableEq, Repr

namespace Ending

/-- Nothing is printed unless all has gone well. -/
def of : Except CommandError CommandOutput → Ending
  | .ok output => ⟨0, output.stdout, output.summary⟩
  | .error e => ⟨1, "", "Error: " ++ e.message⟩

end Ending

/-- How the program ends on the files that its arguments name. -/
def program (files : List FileContent) : Ending := .of (runCommand files)

end ContentSdl
