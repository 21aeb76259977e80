import Highlight.FileSystem.Basic

/-!
# Where a path leads

A path is followed step by step from the root or the current directory. Every step but the last
must lead to a directory. A link on the way is replaced by the path it holds; one at the end is
followed or not, as the operation asks. What comes out is either a node that is there or a free
name in a directory.
-/

namespace Highlight.FileSystem

/-- Where a path leads. `slash` tells whether a slash stood after the last name. -/
inductive Spot where
  /-- A node stands there. -/
  | taken (location : Location) (slash : Bool)
  /-- Nothing stands there, but its directory exists. -/
  | free (directory : Location) (name : RawText) (slash : Bool)
  deriving DecidableEq

/-- How the last step of a path is taken. -/
structure LastStep where
  /-- A link at the end is followed. -/
  follows : Bool
  /-- A file is to be made, so that no slash may stand at the end. -/
  makesFile : Bool

/-- The length of the longest name, in bytes. -/
def maxName : Nat := 255

/-- The length of the longest path, in bytes. -/
def maxPath : Nat := 4095

/-- How many links one path may lead through. -/
def maxLinks : Nat := 40

/--
Follows steps from a directory. `jump` continues from a directory along the path of a link and the
steps after it.
-/
def followWith (fs : FileSystem) (last : LastStep)
    (jump : Location → Path → List Step → Bool → Except FileError Spot) :
    (steps : List Step) → (slash : Bool) → (directory : Location) → Except FileError Spot
  | [], slash, directory => .ok (.taken directory slash)
  | .here :: rest, slash, directory => followWith fs last jump rest slash directory
  | .up :: rest, slash, directory => followWith fs last jump rest slash directory.tail
  | .into name :: rest, slash, directory =>
    if rest = [] ∧ last.makesFile ∧ slash then .error .isADirectory
    else if maxName < name.bytes.length then .error .nameTooLong
    else
      match fs.node? (name :: directory) with
      | none => if rest = [] then .ok (.free directory name slash) else .error .notFound
      | some (.file _) =>
        if rest = [] then .ok (.taken (name :: directory) slash) else .error .notADirectory
      | some .directory => followWith fs last jump rest slash (name :: directory)
      | some (.link target) =>
        if rest = [] ∧ !last.follows then .ok (.taken (name :: directory) slash)
        else jump directory target rest slash

/-- Follows steps from a directory through at most `links` links. -/
def follow (fs : FileSystem) (last : LastStep) :
    (links : Nat) → (steps : List Step) → (slash : Bool) → (directory : Location) →
      Except FileError Spot
  | 0 => followWith fs last fun _ _ _ _ => .error .tooManyLinks
  | links + 1 =>
    followWith fs last fun directory target rest slash =>
      follow fs last links (target.steps ++ rest)
        (if rest = [] then slash || target.endsInSlash else slash)
        (if target.isAbsolute then [] else directory)

/-- Why bytes are not used as a path at all. -/
def fault? (p : Path) : Option FileError :=
  if p.bytes.contains 0 then some .badPath
  else if maxPath < p.bytes.length then some .nameTooLong
  else if p.bytes = [] then some .notFound
  else none

/-- Where a path leads. -/
def spot (fs : FileSystem) (last : LastStep) (p : Path) : Except FileError Spot :=
  match fault? p with
  | some e => .error e
  | none => follow fs last maxLinks p.steps p.endsInSlash (if p.isAbsolute then [] else fs.cwd)

end Highlight.FileSystem
