/-! # Directories

A tree of files and folders, addressed by relative paths. -/

namespace EntityFlow

/-- The files and folders below a root, by the names that lead to them. -/
structure Directory where
  files : List (List String × String) := []
  folders : List (List String) := []
deriving DecidableEq, Repr, Inhabited

namespace Directory

/-- The path of a file in a folder. -/
def join (folder file : String) : String :=
  if folder.isEmpty || file.startsWith "/" then file
  else if folder.endsWith "/" then folder ++ file
  else folder ++ "/" ++ file

def isFolder (d : Directory) (place : List String) : Bool :=
  place.isEmpty || d.folders.contains place

def file? (d : Directory) (place : List String) : Option String := d.files.lookup place

/-- A name has at most 255 bytes. -/
def fits (name : String) : Bool := name.utf8ByteSize ≤ 255

/-- A path has at most 4095 bytes and no null character. -/
def isPath (path : String) : Bool :=
  path.utf8ByteSize ≤ 4095 && !path.toList.contains (Char.ofNat 0)

/-- The steps of a relative path. -/
def steps? (path : String) : Option (List String) :=
  if isPath path then
    match path.splitOn "/" with
    | "" :: _ => none
    | steps => some steps
  else none

/-- A step that stays where it is. -/
def isIdle (step : String) : Bool := step = "" || step = "."

/-- Where steps lead from a place. Every step starts in a folder. -/
def walk (d : Directory) (here : List String) : List String → Option (List String)
  | [] => some here
  | step :: rest =>
      if !d.isFolder here then none
      else if isIdle step then walk d here rest
      else if step = ".." then if here.isEmpty then none else walk d here.dropLast rest
      else if fits step then walk d (here ++ [step]) rest
      else none

/-- Where a path leads, whether or not there is something. -/
def locate? (d : Directory) (path : String) : Option (List String) := (steps? path).bind (d.walk [])

def read? (d : Directory) (path : String) : Option String := (d.locate? path).bind d.file?

def setFile (d : Directory) (place : List String) (text : String) : Directory :=
  { d with files := (place, text) :: d.files.filter fun f => f.1 ≠ place }

/-- Write a file in a folder that exists. -/
def write? (d : Directory) (path text : String) : Option Directory := do
  let place ← d.locate? path
  if d.isFolder place then none else some (d.setFile place text)

/-- Follow steps and make every folder that is missing, and tell whether that worked. What was made
before a step failed stays. -/
def makeSteps (d : Directory) (here : List String) : List String → Directory × Bool
  | [] => (d, true)
  | step :: rest =>
      if isIdle step then makeSteps d here rest
      else if step = ".." then
        if here.isEmpty then (d, false) else makeSteps d here.dropLast rest
      else
        let place := here ++ [step]
        if !fits step || (d.file? place).isSome then (d, false)
        else if d.isFolder place then makeSteps d place rest
        else makeSteps { d with folders := place :: d.folders } place rest

/-- The steps whose folders are made on the way to a folder. When the last step is a dot, the folder
it stays in has to be there already. -/
def stepsToMake (steps : List String) : List String :=
  match steps.reverse.dropWhile (· = "") with
  | "." :: above => ((above.dropWhile isIdle).drop 1).reverse
  | _ => steps

/-- Make a folder and those it lies in, and tell whether it is there; the root always is. -/
def makeFolders (d : Directory) (path : String) : Directory × Bool :=
  if path.isEmpty then (d, true)
  else
    match steps? path with
    | none => (d, false)
    | some steps =>
        let (d, made) := d.makeSteps [] (stepsToMake steps)
        (d, made && (d.walk [] steps).any d.isFolder)

/-- Make a folder, then write a file. -/
def publish (d : Directory) (folder path text : String) : Directory × Bool :=
  match d.makeFolders folder with
  | (d, false) => (d, false)
  | (d, true) =>
      match d.write? path text with
      | some d => (d, true)
      | none => (d, false)

/-- The folder part of a path. -/
def folderOf (path : String) : String :=
  "/".intercalate ((path.splitOn "/").filter fun step => !isIdle step).dropLast

/-- Write a file after making the folders it lies in. -/
def put (d : Directory) (path text : String) : Directory × Bool :=
  d.publish (folderOf path) path text

end Directory

/-- What reading and writing files asks of the outside. Each operation tells whether it worked. -/
structure Store (m : Type → Type) where
  read : String → m (Option String)
  /-- Write a file in a folder that exists. -/
  write : (path text : String) → m Bool
  /-- Make a folder, then put a file in place in one step. -/
  publish : (folder path text : String) → m Bool

/-- Files kept in a directory value. -/
def Directory.store : Store (StateM Directory) where
  read path := return (← get).read? path
  write path text := do
    match (← get).write? path text with
    | some d => set d; return true
    | none => return false
  publish folder path text := do
    let (d, worked) := (← get).publish folder path text
    set d
    return worked

end EntityFlow
