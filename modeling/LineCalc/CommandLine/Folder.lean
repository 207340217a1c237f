/-!
# Folders

A folder holds files and other folders under their paths. Reading a file gives its text, or the
reason why there is none. Paths are followed name by name, so of several faults on one path the
first decides; only the length of the path as a whole is looked at before its names are.
-/

namespace LineCalc

/-- Why a file has no text. -/
inductive ReadFailure where
  | notFound
  | isDirectory
  | notDirectory
  /-- The path, or a name on it, takes more bytes than it may. -/
  | nameTooLong
  /-- The bytes of the file are not UTF-8. -/
  | notText
  /-- Any other failure, in words. -/
  | other (reason : String)
deriving DecidableEq, Repr

/-- The reason in words. -/
def ReadFailure.reason : ReadFailure → String
  | .notFound => "No such file or directory (os error 2)"
  | .isDirectory => "Is a directory (os error 21)"
  | .notDirectory => "Not a directory (os error 20)"
  | .nameTooLong => "File name too long (os error 36)"
  | .notText => "stream did not contain valid UTF-8"
  | .other reason => reason

/-- The text of a file with the given bytes. -/
def textOfBytes (bytes : ByteArray) : Except ReadFailure String :=
  match String.fromUTF8? bytes with
  | some text => .ok text
  | none => .error .notText

/-- What stands under a path. -/
inductive FolderEntry where
  | file (bytes : ByteArray)
  | folder

/-- A folder, with the files and folders in it under their paths. Nothing is known of what is
outside. -/
structure Folder where
  entries : List (List String × FolderEntry) := []

namespace Folder

/-- Does a name on a path lead to where one already is? -/
def staysHere (name : String) : Bool := name == "" || name == "."

/-- Does a name on a path lead to the folder above? -/
def goesUp (name : String) : Bool := name == ".."

/-- The most bytes that a name can take in UTF-8. -/
def maxNameSize : Nat := 255

/-- The most bytes that a path can take in UTF-8. -/
def maxPathSize : Nat := 4095

/-- The names on a path. -/
def names (path : String) : List String := path.splitOn "/"

/-- A folder with entries under the given paths. -/
def ofEntries (entries : List (String × FolderEntry)) : Folder :=
  ⟨entries.map fun (path, entry) => ((names path).filter fun name => !staysHere name, entry)⟩

/-- What stands under a path from the folder itself. A folder stands on the way to anything. -/
def entry? (folder : Folder) (path : List String) : Option FolderEntry :=
  match folder.entries.lookup path with
  | some entry => some entry
  | none =>
    if folder.entries.any fun (other, _) => path.isPrefixOf other then some .folder else none

/-- Where a path outside of the folder leads. -/
def walkOutside : List String → Except ReadFailure FolderEntry
  | [] => .ok .folder
  | name :: rest =>
    if staysHere name || goesUp name then walkOutside rest
    else if maxNameSize < name.utf8ByteSize then .error .nameTooLong
    else .error .notFound

/-- Where the rest of a path leads from the folder under `here`. Behind a file there is nothing. -/
def walk (folder : Folder) (here : List String) : List String → Except ReadFailure FolderEntry
  | [] => .ok .folder
  | name :: rest =>
    if staysHere name then walk folder here rest
    else if goesUp name then
      if here.isEmpty then walkOutside rest else walk folder here.dropLast rest
    else if maxNameSize < name.utf8ByteSize then .error .nameTooLong
    else
      let there := here ++ [name]
      match folder.entry? there with
      | some .folder => walk folder there rest
      | some (.file bytes) => if rest.isEmpty then .ok (.file bytes) else .error .notDirectory
      | none => .error .notFound

/-- The text of the file under a path. -/
def read (folder : Folder) (path : String) : Except ReadFailure String := do
  if maxPathSize < path.utf8ByteSize then throw .nameTooLong
  let found ← if path.startsWith "/" then walkOutside (names path) else folder.walk [] (names path)
  match found with
  | .file bytes => textOfBytes bytes
  | .folder => .error .isDirectory

end Folder

end LineCalc
