import TagLang.Text.Split

/-! # Trees of files

A path is a list of steps between slashes, kept as it is written. Each step is taken in a directory:
an empty one and `.` stay there, `..` leads back, and any other goes to what has that name.
-/

namespace TagLang

abbrev Path := List String

namespace Path

def ofText (text : String) : Path := Text.split '/' text

def stays (step : String) : Bool := step = "" || step = "."

def render (p : Path) : String := "/".intercalate ((p.dropWhile stays).reverse.dropWhile stays).reverse

/-- A path with more steps behind it. Steps that start with a slash do not follow the path; they
start above everything. -/
def join (p : Path) (text : String) : Path :=
  match ofText text with
  | "" :: step :: steps => ".." :: step :: steps
  | steps => p ++ steps

def upwards (p : Path) : List Path := (List.range (p.length + 1)).reverse.map p.take

def maxBytes : Nat := 4095

def maxNameBytes : Nat := 255

def isUsable (p : Path) : Bool :=
  ("/".intercalate p).utf8ByteSize ≤ maxBytes && p.all fun step => step.toList.all (· ≠ '\x00')

end Path

/-- A place in a tree: the names from the root on. The directories above the root are written with
`..`. -/
abbrev Place := List String

namespace Place

def isRootOrAbove (place : Place) : Bool := place.all (· = "..")

def go (place : Place) (step : String) : Place :=
  if Path.stays step then place
  else if step = ".." && !place.isRootOrAbove then place.dropLast
  else place ++ [step]

def trail (place : Place) : Path → List Place
  | [] => [place]
  | step :: steps => place :: trail (place.go step) steps

end Place

structure FileTree where
  files : List (Place × String) := []
  directories : List Place := []
deriving Repr, Inhabited

inductive FileError
  | missing
  | unreadable
deriving DecidableEq, Repr, Inhabited

namespace FileTree

/-- The tree that comes about if directories and then files with their texts are put at paths.
Directories on the way are made, also those that a path only goes through. A later text replaces an
earlier one. -/
def ofPaths (files : List (String × String)) (directories : List String) : FileTree where
  files := (files.map fun (path, text) => ((Path.ofText path).foldl Place.go [], text)).reverse
  directories := directories.flatMap (fun path => Place.trail [] (Path.ofText path)) ++
    files.flatMap fun (path, _) => Place.trail [] (Path.ofText path).dropLast

def file? (t : FileTree) (place : Place) : Option String := t.files.lookup place

/-- The root and what is above it are directories; those above it hold nothing that is known. -/
def isDirectory (t : FileTree) (place : Place) : Bool :=
  place.isRootOrAbove || t.directories.any (place.isPrefixOf ·) ||
    t.files.any fun (q, _) => place.isPrefixOf q && place.length < q.length

def follow (t : FileTree) : Place → Path → Except FileError Place
  | place, [] => .ok place
  | place, step :: steps =>
    if !t.isDirectory place then .error (if (t.file? place).isSome then .unreadable else .missing)
    else if Path.maxNameBytes < step.utf8ByteSize then .error .unreadable
    else follow t (place.go step) steps

def read (t : FileTree) (p : Path) : Except FileError String :=
  if !p.isUsable then .error .unreadable
  else do
    let place ← t.follow [] p
    match t.file? place with
    | some text => .ok text
    | none => .error (if t.isDirectory place then .unreadable else .missing)

def isFile (t : FileTree) (p : Path) : Bool := (t.read p).isOk

end FileTree

end TagLang
