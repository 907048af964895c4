import Workflow.CommandLine.Run

/-!
# Directories

A run finds its files in a directory. A path is followed step by step, from the directory or from the
root: `.` stays, `..` goes up and, at the top, stays. Of what lies above the directory only this is
known, that there are directories; of the root, the entries that every system has.
-/

namespace Workflow.CommandLine

abbrev Directory := List (String × ByteArray)

inductive Entry where
  | file (content : ByteArray)
  | directory (entries : List (String × Entry))

abbrev Listing := List (String × Entry)

/-- A directory that a path has come to. -/
structure Place where
  listing : Listing
  /-- The directories that the path went down from, the last one first. -/
  parents : List Listing
  /-- The directory above those. -/
  top : Listing

namespace Place

def up (p : Place) : Place :=
  match p.parents with
  | [] => ⟨p.top, [], p.top⟩
  | parent :: others => ⟨parent, others, p.top⟩

def down (p : Place) (listing : Listing) : Place := ⟨listing, p.listing :: p.parents, p.top⟩

/-- The number of bytes that a name may have. -/
def nameLimit : Nat := 255

/-- The text of the file that the steps of a path lead to. Behind a file there are no steps, not even
one that stays. -/
def read (p : Place) : List String → Except ReadFailure String
  | [] => .error .isDirectory
  | step :: rest =>
    -- two slashes with nothing between them are one
    if step = "" ∨ step = "." then p.read rest
    else if step = ".." then p.up.read rest
    else if nameLimit < step.utf8ByteSize then .error .nameTooLong
    else match p.listing.lookup step with
      | none => .error .notFound
      | some (.directory listing) => (p.down listing).read rest
      | some (.file content) => if rest.isEmpty then decode content else .error .notDirectory

/-- The entries of the root that every system has. -/
def systemListing : Listing :=
  [("dev", .directory [("null", .file .empty)]), ("tmp", .directory [])]

/-- The root, which is above itself. -/
def root : Place := ⟨systemListing, [], systemListing⟩

/-- A directory below others of which nothing is known. -/
def ofDirectory (directory : Directory) : Place :=
  ⟨directory.map fun file => (file.1, .file file.2), [], []⟩

end Place

namespace Directory

/-- The number of bytes that a path may have. -/
def pathLimit : Nat := 4095

def pathSteps (path : String) : List String := (splitAt '/' path.toList).map String.ofList

def read (directory : Directory) (path : String) : Except ReadFailure String :=
  if path.isEmpty then .error .notFound
  else if pathLimit < path.utf8ByteSize then .error .nameTooLong
  else if path.toList.head? = some '/' then Place.root.read (pathSteps path)
  else (Place.ofDirectory directory).read (pathSteps path)

end Directory

end Workflow.CommandLine
