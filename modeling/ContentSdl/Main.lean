import ContentSdl.CommandLine

/-! # The program: types for an exported content model -/

namespace ContentSdl

/-- A file that cannot be read counts as missing. -/
def readContent (path : String) : IO FileContent := do
  try
    return .bytes (← IO.FS.readBinFile path)
  catch _ =>
    return .missing

def runMain (paths : List String) : IO UInt32 := do
  let ending := program (← (paths.take 2).mapM readContent)
  IO.print ending.stdout
  IO.eprintln ending.remark
  return ending.code

end ContentSdl

def main (args : List String) : IO UInt32 := ContentSdl.runMain args
