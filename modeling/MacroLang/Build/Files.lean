import MacroLang.Error

/-!
# Source files

Paths are written in a normal form: single slashes, no `.` segments, and a lone `.` for the current directory;
`..` segments stay. `Files` holds the texts of files by path.
-/

namespace MacroLang

/-- A path: the slashes it starts with, and its segments. -/
structure Path where
  root : String
  segments : List String
deriving DecidableEq, Repr

namespace Path

/-- Two slashes at the start are kept; one, or more than two, are one. -/
def rootOf (cs : List Char) : String :=
  match cs.takeWhile (· = '/') with
  | [] => ""
  | ['/', '/'] => "//"
  | _ => "/"

def ofString (s : String) : Path where
  root := rootOf s.toList
  segments := ((s.toList.splitOn '/').map String.ofList).filter fun t => t != "" && t != "."

def text (p : Path) : String :=
  if p.root.isEmpty && p.segments.isEmpty then "." else p.root ++ "/".intercalate p.segments

/-- The path `q` seen from directory `p`. -/
def join (p q : Path) : Path :=
  if q.root.isEmpty then { p with segments := p.segments ++ q.segments } else q

end Path

/-- The texts of the files that are known, by path. -/
structure Files where
  entries : List (Path × String) := []

/-- What a path leads to. -/
inductive Located where
  | directory
  | file (text : String)

namespace Files

def ofList (entries : List (String × String)) : Files where
  entries := entries.map fun (name, text) => (Path.ofString name, text)

/-- The text of the file at a path without detours. -/
def text? (f : Files) (p : Path) : Option String :=
  f.entries.lookup p

/-- Is there a file somewhere below these segments? -/
def isDirectory (f : Files) (segments : List String) : Bool :=
  segments.isEmpty || f.entries.any fun (path, _) =>
    path.root.isEmpty && segments.length < path.segments.length
      && segments.isPrefixOf path.segments

/-- Follows the segments of a path from a directory. The directories above the current one are known to be
there, and nothing else is known about them. -/
def follow (f : Files) (above : Nat) (directory : List String) : List String → Option Located
  | [] => some .directory
  | segment :: rest =>
    if segment = ".." then
      if directory.isEmpty then follow f (above + 1) [] rest
      else follow f above directory.dropLast rest
    else if above ≠ 0 then none
    else
      let path := directory ++ [segment]
      if f.isDirectory path then follow f above path rest
      else if rest.isEmpty then (f.text? ⟨"", path⟩).map .file
      else none

def locate (f : Files) (p : Path) : Option Located :=
  match f.text? p with
  | some text => some (.file text)
  | none =>
    if p.root.isEmpty then f.follow 0 [] p.segments
    else if p.segments.isEmpty then some .directory
    else none

/-- Finds a source as it is named, or else in one of the given directories. -/
def find (f : Files) (directories : List String) (name : String) : Except Error (Path × Located) :=
  let candidates := Path.ofString name
    :: directories.map fun d => (Path.ofString d).join (Path.ofString name)
  match candidates.findSome? fun p => (f.locate p).map (p, ·) with
  | some found => .ok found
  | none => .error (.fileMissing name)

/-- Line ends are read as `\n`, however they are written. The characters read so far come last one first. -/
def normalizeLines (read : List Char) : List Char → List Char
  | '\r' :: '\n' :: rest => normalizeLines ('\n' :: read) rest
  | '\r' :: rest => normalizeLines ('\n' :: read) rest
  | c :: rest => normalizeLines (c :: read) rest
  | [] => read.reverse

/-- The text of a source that was found. -/
def textOf (p : Path) : Located → Except Error String
  | .directory => .error (.isDirectory p.text)
  | .file text => .ok (String.ofList (normalizeLines [] text.toList))

end Files

end MacroLang
