import TabMarkup.Compilation
import TabMarkup.FileSystem

/-!
# Compiling files

A file is a source whose size is known. A directory can be opened like a file, but not read.
-/

namespace TabMarkup

/-- Compiles the bytes of the file at a path. -/
def compileBytes (path : String) (bytes : List UInt8) : Compilation :=
  let c := Compilation.run (Source.ofBytes bytes) (some bytes.length)
  { c with events := .compilingFile path bytes.length :: c.events }

/-- The size that a directory has as a file. -/
def directorySize : Nat := 4096

/-- The error of an opening or a read that is refused before the first byte. -/
def refusal (error : FileError) : ParseError :=
  ⟨.unreadable error.message, 1⟩

/-- Compiles what stands at a path. -/
def compileEntry (path : String) : FileSystem.Entry → Compilation
  | .file bytes _ => compileBytes path bytes
  | .directory .. =>
    let error := refusal .isDirectory
    { result := .error error
      events := [.compilingFile path directorySize, .parseFailed error] }

/-- Compiles the file at a path. -/
def compileFile (fs : FileSystem) (path : String) : Compilation :=
  match fs.stat path with
  | .error error => { result := .error (refusal error), events := [] }
  | .ok entry => compileEntry path entry

end TabMarkup
