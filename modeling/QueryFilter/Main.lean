import QueryFilter.Showcase

/-!
# The program

Looks at the file of the catalog and prints what the showcase shows.
-/

namespace QueryFilter.Showcase

/-- What stands at the path of the catalog. -/
def look : IO Catalog.Content := do
  try
    return .bytes (← IO.FS.readBinFile path)
  catch
    | .noFileOrDirectory .. => return .missing
    | _ => return .directory

end QueryFilter.Showcase

/-- Runs the showcase in the current directory. -/
def main : IO UInt32 := do
  let outcome := QueryFilter.Showcase.run (← QueryFilter.Showcase.look)
  IO.print outcome.output
  IO.eprint outcome.errors
  return outcome.code.toUInt32
