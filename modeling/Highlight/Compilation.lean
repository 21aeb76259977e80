import Highlight.Setup
import Highlight.SyntaxFiles.Extended
import Highlight.SyntaxFiles.Store
import Highlight.Uuid

/-!
# Compiling a scheme

A scheme file is read, the keywords it includes are joined to its own, rules are made of them, and
the three syntax files are made of the rules. Only when all three are there is anything written.
All that is random comes from outside, so that a compilation is a function of the file system, the
setup and the random words.
-/

namespace Highlight.Compilation

/-- What is new in each compilation. -/
structure Fresh where
  /-- The random words that colours are drawn from. -/
  word : Nat → UInt32
  /-- The identifiers of a new grammar and theme. -/
  ids : SyntaxFiles.Ids

/-- What a seed gives for a compilation. -/
def Fresh.ofSeed (seed : List UInt8) : Fresh where
  word := (Entropy.ofSeed (0 :: seed)).word
  ids :=
    let word := (Entropy.ofSeed (1 :: seed)).word
    ⟨Uuid.ofWords word 0, Uuid.ofWords word 16⟩

/-- Whether syntax files are new or extend others. -/
inductive Origin where
  | new
  | extended
  deriving DecidableEq, Repr

/-- The word for what was done. -/
def Origin.word : Origin → String
  | new => "generated"
  | extended => "derived"

/-- How the syntax files of a scheme come about. -/
def Origin.ofScheme (scheme : Scheme) : Origin :=
  if scheme.derivation.isSome then .extended else .new

/-- A compilation that went well. -/
structure Done where
  name : String
  origin : Origin
  /-- How many rules there are. -/
  rules : Nat
  /-- The files that were written. -/
  written : List Path
  deriving DecidableEq

/-- What the user is told of a compilation that went well. -/
def Done.status (d : Done) : String :=
  d.name ++ " syntax files " ++ d.origin.word ++ " (" ++ String.ofList (Nat.toDigits 10 d.rules)
    ++ " rules)."

/-- Why nothing came of a compilation. -/
inductive Failure where
  /-- The scheme could not be loaded. -/
  | loading (error : Scheme.LoadError)
  /-- The syntax files of the scheme with this name could not be made or written. -/
  | making (name : String) (error : SyntaxFiles.Error)
  deriving DecidableEq

/-- What is told about a failure. -/
def Failure.message (w : Wording) : Failure → String
  | loading error => error.message w
  | making name error => name ++ ": " ++ error.message w

/-- What the user is told about a failure. -/
def Failure.status (w : Wording) : Failure → String
  | loading (.malformed path _) =>
    (path.fileName?.getD path.raw).text ++ " is not a valid JSON file."
  | failure => failure.message w

/-- The base colours of the base theme of the setup, if it can be read and has any. -/
def chosenBase? (fs : FileSystem) (setup : Setup) : Option SyntaxFiles.BaseColours :=
  match setup.baseTheme with
  | none => none
  | some path =>
    match SyntaxFiles.documentAt fs path with
    | .error _ => none
    | .ok theme => SyntaxFiles.BaseColours.ofTheme? theme

/-- The rules of a loaded scheme. -/
def rulesOf (fs : FileSystem) (setup : Setup) (fresh : Fresh) (scheme : Scheme) : List Rule :=
  let keywords := scheme.allKeywords fs (some setup.includeDirectory)
  (Rule.batch keywords scheme.lists 0 ⟨fresh.word, 0⟩).rules

/-- The syntax files of a loaded scheme. Base colours matter to new themes only. -/
def filesOf (fs : FileSystem) (setup : Setup) (fresh : Fresh) (scheme : Scheme) :
    Except SyntaxFiles.Error SyntaxFiles :=
  let base := if scheme.derivation.isSome then none else chosenBase? fs setup
  SyntaxFiles.build fs scheme (rulesOf fs setup fresh scheme) setup.outputDirectory base
    fresh.ids

/-- Compiles a loaded scheme and writes its syntax files. -/
def compileLoaded (fs : FileSystem) (setup : Setup) (fresh : Fresh) (scheme : Scheme) :
    Except Failure Done × FileSystem :=
  match filesOf fs setup fresh scheme with
  | .error e => (.error (.making scheme.name e), fs)
  | .ok files =>
    match files.store fs setup.outputDirectory scheme.name with
    | (.error e, fs') => (.error (.making scheme.name e), fs')
    | (.ok written, fs') =>
      (.ok { name := scheme.name
             origin := Origin.ofScheme scheme
             rules := (rulesOf fs setup fresh scheme).length
             written }, fs')

/-- The path of a scheme file as it is loaded and told about. -/
def schemePath (fs : FileSystem) (path : Path) : Path :=
  path.absolute (FileSystem.pathOf fs.cwd)

/-- Compiles a scheme file and writes its syntax files. -/
def compile (fs : FileSystem) (setup : Setup) (fresh : Fresh) (path : Path) :
    Except Failure Done × FileSystem :=
  match Scheme.load fs (schemePath fs path) with
  | .error e => (.error (.loading e), fs)
  | .ok scheme => compileLoaded fs setup fresh scheme

end Highlight.Compilation
