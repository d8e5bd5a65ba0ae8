/-!
What a program asks of its surroundings: files, variables, the clock, and two places to write to.
-/

namespace ArrayKernel.Program

inductive OsError where
  | notFound
  | present
  | notDirectory
  | isDirectory
  | nameTooLong
  | other (message : String)
  deriving DecidableEq, Repr

def OsError.message : OsError → String
  | notFound => "No such file or directory (os error 2)"
  | present => "File exists (os error 17)"
  | notDirectory => "Not a directory (os error 20)"
  | isDirectory => "Is a directory (os error 21)"
  | nameTooLong => "File name too long (os error 36)"
  | other m => m

structure Host (m : Type → Type) where
  read (path : String) : m (Except OsError String)
  isFile (path : String) : m Bool
  /-- Creates a directory and those above it. One that is there already is no error. -/
  createDirectories (path : String) : m (Except OsError Unit)
  write (path text : String) : m (Except OsError Unit)
  environment (name : String) : m (Option String)
  clock : m Nat
  print (text : String) : m Unit
  report (line : String) : m Unit

end ArrayKernel.Program
