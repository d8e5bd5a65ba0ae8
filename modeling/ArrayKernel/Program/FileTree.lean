import ArrayKernel.Program.Host
import ArrayKernel.Program.Path

/-!
A tree of files in memory, and surroundings made of it. Files are given in the working directory.
The root of all and the directories above the working directory are there too, but nothing else is
known in them; so no path that has left the working directory leads back into it.
-/

namespace ArrayKernel.Program

inductive FileNode where
  | file (text : String)
  | directory
  deriving DecidableEq, Repr

inductive Base where
  /-- So many directories above the working directory. -/
  | above (levels : Nat)
  | root
  deriving DecidableEq, Repr

/-- A place is reached by steps from a base, the last step first. -/
structure Place where
  base : Base := .above 0
  steps : List String := []
  deriving DecidableEq, Repr

namespace Place

def enter (p : Place) (step : String) : Place := { p with steps := step :: p.steps }

def parent (p : Place) : Place :=
  match p.steps, p.base with
  | _ :: above, _ => { p with steps := above }
  | [], .above n => { base := .above (n + 1) }
  | [], .root => p

def start (path : String) : Place := if Path.isAbsolute path then { base := .root } else {}

end Place

structure FileTree where
  nodes : List (Place × FileNode) := []
  deriving DecidableEq, Repr

namespace FileTree

def node? (t : FileTree) (place : Place) : Option FileNode :=
  if place.steps.isEmpty then some .directory else t.nodes.lookup place

def set (t : FileTree) (place : Place) (node : FileNode) : FileTree :=
  { nodes := (place, node) :: t.nodes.filter (·.1 != place) }

def nameLimit : Nat := 255

def pathLimit : Nat := 4095

/-- Follows steps from a place. Every place that a step leaves must be a directory. -/
def follow (t : FileTree) (place : Place) : List String → Except OsError Place
  | [] => .ok place
  | step :: rest =>
    match t.node? place with
    | none => .error .notFound
    | some (.file _) => .error .notDirectory
    | some .directory =>
      if nameLimit < step.utf8ByteSize then .error .nameTooLong
      else t.follow (if step == "." then place else if step == ".." then place.parent else place.enter step) rest

def followPath (t : FileTree) (path : String) (steps : List String) : Except OsError Place :=
  if path.isEmpty then .error .notFound
  else if pathLimit < path.utf8ByteSize then .error .nameTooLong
  else t.follow (.start path) steps

/-- The place of a path. A slash at its end asks for a directory. -/
def locate (t : FileTree) (path : String) : Except OsError Place :=
  t.followPath path (Path.written path ++ if path.endsWith "/" then ["."] else [])

def read (t : FileTree) (path : String) : Except OsError String := do
  match t.node? (← t.locate path) with
  | none => .error .notFound
  | some .directory => .error .isDirectory
  | some (.file text) => .ok text

def isFile (t : FileTree) (path : String) : Bool := (t.read path).isOk

def isDirectory (t : FileTree) (path : String) : Bool :=
  match t.locate path with
  | .ok place => t.node? place == some .directory
  | .error _ => false

def write (t : FileTree) (path text : String) : Except OsError FileTree := do
  let place ← t.locate path
  match t.node? place with
  | some .directory => .error .isDirectory
  | _ => .ok (t.set place (.file text))

def createDirectory (t : FileTree) (path : String) : Except OsError FileTree := do
  let place ← t.followPath path (Path.written path)
  match t.node? place with
  | some _ => .error .present
  | none => .ok (t.set place .directory)

/-- Creates one directory, after those above it if they are missing. -/
def createAfter (t : FileTree) (path : String) (above : FileTree → Except OsError FileTree) :
    Except OsError FileTree :=
  let orPresent (t : FileTree) (e : OsError) : Except OsError FileTree :=
    if t.isDirectory path then .ok t else .error e
  match t.createDirectory path with
  | .ok t => .ok t
  | .error .notFound =>
    match above t with
    | .error e => .error e
    | .ok t =>
      match t.createDirectory path with
      | .ok t => .ok t
      | .error e => orPresent t e
  | .error e => orPresent t e

/-- Creates the directory of some steps, given with the last step first. -/
def createSteps : List String → FileTree → Except OsError FileTree
  | [], t => .ok t
  | step :: above, t => t.createAfter (Path.ofSteps (step :: above).reverse) (createSteps above)

def createDirectories (t : FileTree) (path : String) : Except OsError FileTree :=
  t.createAfter path (createSteps (Path.steps path).reverse.tail)

def files (t : FileTree) : List (String × String) :=
  t.nodes.filterMap fun (place, node) =>
    match place.base, node with
    | .above 0, .file text => some (Path.ofSteps place.steps.reverse, text)
    | _, _ => none

/-- The tree of some files and of the directories that hold them. -/
def ofFiles (files : List (String × String)) : FileTree :=
  files.foldl (fun t (path, text) =>
    let steps := Path.steps path
    let above := (List.range steps.length).map fun k => (steps.take k).reverse
    let t := above.foldl (fun t steps => if steps.isEmpty then t else t.set { steps } .directory) t
    t.set { steps := steps.reverse } (.file text)) {}

end FileTree

structure Console where
  files : FileTree := {}
  environment : List (String × String) := []
  printed : String := ""
  reported : List String := []

namespace Console

def host : Host (StateM Console) where
  read path := return (← get).files.read path
  isFile path := return (← get).files.isFile path
  createDirectories path := modifyGet fun c =>
    match c.files.createDirectories path with
    | .ok files => (.ok (), { c with files })
    | .error e => (.error e, c)
  write path text := modifyGet fun c =>
    match c.files.write path text with
    | .ok files => (.ok (), { c with files })
    | .error e => (.error e, c)
  environment name := return (← get).environment.lookup name
  clock := return 0
  print text := modify fun c => { c with printed := c.printed ++ text }
  report line := modify fun c => { c with reported := line :: c.reported }

end Console

end ArrayKernel.Program
