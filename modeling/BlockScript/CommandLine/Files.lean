import BlockScript.Text.Quoted

/-!
# Files

What reading a file gives, and a tree of files to read from: a path leads from the top of the tree
through its directories.
-/

namespace BlockScript

/-- What reading a file gives. -/
inductive FileContent
  | bytes (bytes : ByteArray)
  | missing
  | unreadable (reason : String)

namespace FileContent

/-- The reason why a path cannot be read, by its number, its text and the path. -/
def refusal (number : Nat) (text path : String) : FileContent :=
  .unreadable ("[Errno " ++ toString number ++ "] " ++ text ++ ": " ++ Text.Quoted.encode path)

def isDirectory (path : String) : FileContent := refusal 21 "Is a directory" path

def notDirectory (path : String) : FileContent := refusal 20 "Not a directory" path

end FileContent

/-- Files and directories by their paths from the top, each path a list of names. Whatever a path
leads through is a directory as well. -/
structure FileTree where
  files : List (List String × ByteArray)
  directories : List (List String)

namespace FileTree

/-- The names that a path is made of. -/
def names (path : String) : List String := path.splitOn "/"

def ofPaths (files : List (String × ByteArray)) (directories : List String) : FileTree :=
  ⟨files.map fun (path, bytes) => (names path, bytes), directories.map names⟩

def isDirectory (t : FileTree) (path : List String) : Bool :=
  (t.directories ++ t.files.map (·.1.dropLast)).any (path.isPrefixOf ·)

/-- The directory that a directory lies in; there is one above the top, but nothing is known of
it. -/
def parent? : List String → Option (List String)
  | [] => none
  | name :: names => some (name :: names).dropLast

/-- Walks along `names` from the directory `here`, which is none outside of the tree. Nothing but
directories above is found there. -/
def walk (t : FileTree) (path : String) :
    (here : Option (List String)) → (names : List String) → FileContent
  | _, [] => .isDirectory path
  | here, name :: rest =>
    if name = "" || name = "." then walk t path here rest
    else if name = ".." then walk t path (here.bind parent?) rest
    else
      match here with
      | none => .missing
      | some directory =>
        let next := directory ++ [name]
        match t.files.lookup next with
        | some bytes => if rest.isEmpty then .bytes bytes else .notDirectory path
        | none => if t.isDirectory next then walk t path (some next) rest else .missing

def read (t : FileTree) (path : String) : FileContent :=
  t.walk path (if path.startsWith "/" then none else some []) (names path)

end FileTree

end BlockScript
