/-!
Paths as texts: steps between slashes.
-/

namespace ArrayKernel.Program.Path

def written (path : String) : List String := (path.splitOn "/").filter (!·.isEmpty)

def isAbsolute (path : String) : Bool := path.startsWith "/"

/-- The steps of a path without those that lead nowhere: a dot counts only at the start. The root is
a step. -/
def steps (path : String) : List String :=
  match written path with
  | [] => if isAbsolute path then ["/"] else []
  | first :: rest =>
    let rest := rest.filter (· != ".")
    if isAbsolute path then "/" :: (first :: rest).filter (· != ".") else first :: rest

def join (directory name : String) : String :=
  if directory.isEmpty || directory.endsWith "/" then directory ++ name else directory ++ "/" ++ name

def ofSteps (steps : List String) : String := steps.foldl join ""

/-- The steps of a path and of all directories above it, as far as its text shows them, the nearest
first. -/
def upward (steps : List String) : List (List String) :=
  let all := (List.range (steps.length + 1)).reverse.map steps.take
  if steps.head? == some "/" then all.filter (!·.isEmpty) else all

/-- A file name without what follows its last dot. A dot at the start begins no ending. -/
def stemOf (name : String) : String :=
  let cs := name.toList
  let ending := cs.reverse.takeWhile (· != '.')
  let before := cs.reverse.drop (ending.length + 1)
  if before.isEmpty then name else String.ofList before.reverse

def stem? (path : String) : Option String :=
  match (steps path).getLast? with
  | some name => if name == ".." || name == "." || name == "/" then none else some (stemOf name)
  | none => none

end ArrayKernel.Program.Path
