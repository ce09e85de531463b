import Runbook.Fault

/-!
# Disks

A disk is a tree of folders and text files under one top folder, whose place has no steps.

* `Disk`: what lies where
* `Disk.follow?`: where a path leads
* `OnDisk`: work on a disk that may be refused; what was done before the refusal stays done
* `Disk.read`, `Disk.list`: what is there
* `Disk.makeFolders`, `Disk.write`, `Disk.removeAll`: such work
-/

namespace Runbook

/-- The names of the folders from the top down, and of a file or folder at the end. -/
abbrev Place := List String

/-- What can lie at a place. -/
inductive Entry where
  /-- a file and its text -/
  | file (text : String)
  /-- a folder -/
  | folder
  deriving DecidableEq, Repr

/-- What lies at which place. -/
structure Disk where
  /-- the places that are taken, each once -/
  entries : List (Place × Entry)
  deriving DecidableEq, Repr

/-- Work on a disk that may be refused. -/
abbrev OnDisk (α : Type) : Type := ExceptT Fault (StateM Disk) α

namespace Disk

/-- The disk with nothing below the top folder. -/
def empty : Disk := ⟨[([], .folder)]⟩

instance : Inhabited Disk := ⟨empty⟩

/-- What lies at a place. -/
def at? (d : Disk) (place : Place) : Option Entry :=
  (d.entries.find? fun e => e.1 = place).map Prod.snd

/-- Puts something at a place. -/
def put (d : Disk) (place : Place) (entry : Entry) : Disk :=
  ⟨(d.entries.filter fun e => e.1 ≠ place) ++ [(place, entry)]⟩

/-- Takes away what lies at a place and below it. -/
def clear (d : Disk) (place : Place) : Disk :=
  ⟨d.entries.filter fun e => !place.isPrefixOf e.1⟩

/-- Takes away what lies below a place. -/
def hollow (d : Disk) (place : Place) : Disk :=
  ⟨d.entries.filter fun e => e.1 = place || !place.isPrefixOf e.1⟩

/-! ## Paths -/

/-- The parts of a path between slashes. -/
def parts (path : String) : List String :=
  (path.toList.foldr
    (fun c acc => if c = '/' then [] :: acc else
      match acc with
      | [] => [[c]]
      | p :: rest => (c :: p) :: rest) [[]]).map String.ofList

/-- Whether a part of a path leads nowhere else. -/
def isIdle (part : String) : Bool := part = "" || part = "."

/-- A path with more parts. A slash at its end is not doubled. -/
def join (path more : List String) : List String :=
  (if path.getLast? = some "" then path.dropLast else path) ++ more

/-- Whether a path can be put to the disk: it is shorter than 4096 bytes and has no zero byte. -/
def isSpeakable (path : List String) : Bool :=
  ("/".intercalate path).utf8ByteSize < 4096 &&
    path.all fun part => !part.toList.contains '\x00'

/-- Whether a name is too long for a folder or file. -/
def isTooLong (name : String) : Bool := 255 < name.utf8ByteSize

/-- Where the parts of a path lead from a folder. All but the last must lead to a folder, so a
slash or a dot at the end asks for one; two dots lead up. -/
def walk? (d : Disk) (here : Place) : List String → Option Place
  | [] => some here
  | name :: rest =>
    if isIdle name then walk? d here rest
    else if name = ".." then walk? d here.dropLast rest
    else if isTooLong name then none
    else
      let next := here ++ [name]
      if rest.isEmpty then some next
      else if d.at? next = some .folder then walk? d next rest
      else none

/-- Where a path leads from the top. -/
def follow? (d : Disk) (path : List String) : Option Place :=
  if isSpeakable path then d.walk? [] path else none

/-- What lies at the end of a path. -/
def find? (d : Disk) (path : List String) : Option Entry := (d.follow? path).bind d.at?

/-- Whether anything lies at the end of a path. -/
def has (d : Disk) (path : List String) : Bool := (d.find? path).isSome

/-- Whether a file lies at the end of a path. -/
def hasFile (d : Disk) (path : List String) : Bool :=
  match d.find? path with
  | some (.file _) => true
  | _ => false

/-- The text of a file. -/
def read (d : Disk) (path : List String) : Except Fault String :=
  match d.find? path with
  | some (.file text) => .ok text
  | _ => .error .disk

/-- The place of a folder. -/
def folder (d : Disk) (path : List String) : Except Fault Place :=
  match d.follow? path with
  | none => .error .disk
  | some place => if d.at? place = some .folder then .ok place else .error .disk

/-- The names of what lies right in a folder. -/
def list (d : Disk) (path : List String) : Except Fault (List String) :=
  (d.folder path).map fun place =>
    d.entries.filterMap fun (p, _) => if p.dropLast = place then p.getLast? else none

/-! ## Work -/

/-- Looks at the disk. -/
def look {α : Type} (f : Disk → Except Fault α) : OnDisk α := do
  match f (← get) with
  | .ok a => return a
  | .error fault => throw fault

/-- Makes the folders that are missing along the parts of a path from a folder. -/
def makeFoldersFrom (here : Place) : List String → OnDisk Unit
  | [] => return
  | name :: rest => do
    if isIdle name then makeFoldersFrom here rest
    else if name = ".." then makeFoldersFrom here.dropLast rest
    else if isTooLong name then throw .disk
    else
      let next := here ++ [name]
      match (← get).at? next with
      | some .folder => makeFoldersFrom next rest
      | some (.file _) => throw .disk
      | none =>
        modify fun d => d.put next .folder
        makeFoldersFrom next rest

/-- Makes the folders that are missing along a path, the top folder included. -/
def makeFolders (path : List String) : OnDisk Unit := do
  if isSpeakable path then
    if (← get).at? [] = none then modify fun d => d.put [] .folder
    makeFoldersFrom [] path
  else throw .disk

/-- Writes a file into a folder that is there. -/
def write (path : List String) (text : String) : OnDisk Unit := do
  let d ← get
  match d.follow? path with
  | none => throw .disk
  | some place =>
    if d.at? place = some .folder || d.at? place.dropLast ≠ some .folder then throw .disk
    else set (d.put place (.file text))

/-- Whether a path names its folder from inside, by a dot at its end. -/
def isInside (path : List String) : Bool := (path.filter fun p => p ≠ "").getLast? = some "."

/-- Takes away everything below a folder and then the folder, unless its path led through what is
gone now. A folder that is named from inside cannot be taken away. -/
def removeAll (path : List String) : OnDisk Unit := do
  let place ← look fun d => d.folder path
  modify fun d => d.hollow place
  if ((← get).follow? path).isSome then
    if isInside path then throw .disk
    else modify fun d => d.clear place

/-! ## Views -/

/-- The files at the end of a path or below, with the name and text of each. -/
def filesUnder (d : Disk) (path : List String) : List (String × String) :=
  match d.follow? path with
  | none => []
  | some place => d.entries.filterMap fun (p, entry) =>
    match entry with
    | .file text => if place.isPrefixOf p then p.getLast?.map (·, text) else none
    | .folder => none

/-- Every place that is taken below the top, as a path from there in order; folders end in a
slash. -/
def listing (d : Disk) : List String :=
  ((d.entries.filter fun e => e.1 ≠ []).map fun (place, entry) =>
    "/".intercalate place ++ if entry = .folder then "/" else "").mergeSort (· ≤ ·)

end Disk

end Runbook
