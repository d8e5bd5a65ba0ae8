import ArrayKernel.Program.Action

/-!
The program on the real files, variables and streams.
-/

namespace ArrayKernel.Program

def OsError.ofIO : IO.Error → OsError
  | .noFileOrDirectory .. => .notFound
  | .alreadyExists .. => .present
  | .inappropriateType _ code _ => if code == 21 then .isDirectory else .notDirectory
  | .invalidArgument _ 36 _ => .nameTooLong
  | e => .other (toString e)

def attempt {α : Type} (action : IO α) : IO (Except OsError α) := do
  match ← action.toBaseIO with
  | .ok a => return .ok a
  | .error e => return .error (.ofIO e)

def systemHost : Host IO where
  read path := attempt (IO.FS.readFile path)
  isFile path := return (← (IO.FS.readFile path).toBaseIO).isOk
  createDirectories path := attempt (IO.FS.createDirAll path)
  write path text := attempt (IO.FS.writeFile path text)
  environment name := IO.getEnv name
  clock := IO.monoNanosNow
  print text := IO.print text
  report line := IO.eprintln line

end ArrayKernel.Program

def main (args : List String) : IO UInt32 :=
  ArrayKernel.Program.execute ArrayKernel.Program.systemHost args
