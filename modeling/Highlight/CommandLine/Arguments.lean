import Highlight.Setup

/-!
# The arguments of the command line

A command line names one command and its operands. Options may stand before the command, where
they hold for every command, or after it. An option takes the next argument as its value, or the
text after an equals sign. Two dashes alone end the options.

Arguments are read from left to right. The first one that asks for help or for the version, or
that cannot be used, decides. Paths need not be texts; all else must be.
-/

namespace Highlight.CommandLine

/-- The commands. -/
inductive Verb where
  | compile
  | delete
  | new
  | list
  deriving DecidableEq, Repr

namespace Verb

/-- The command a word stands for. -/
def ofWord? : String → Option Verb
  | "compile" => some compile
  | "delete" => some delete
  | "new" => some new
  | "list" => some list
  | _ => none

/-- Whether a command needs an operand. -/
def needsOperand : Verb → Bool
  | list => false
  | _ => true

/-- Whether a command with `n` operands can take one more. -/
def takesMore (n : Nat) : Verb → Bool
  | list => false
  | new => n == 0
  | _ => true

/-- Whether the operands of a command are paths. -/
def takesPaths : Verb → Bool
  | delete => false
  | _ => true

/-- Whether a command can do with an operand: a path with any but the empty one, else a text. -/
def accepts (operand : RawText) (verb : Verb) : Bool :=
  if verb.takesPaths then operand.bytes != [] else operand.text?.isSome

end Verb

/-- The options. -/
inductive Setting where
  | outputDirectory
  | includeDirectory
  | logLevel
  | baseTheme
  deriving DecidableEq, Repr

namespace Setting

/-- The option of a name, as far as it may stand where it does: after a command or before it. -/
def ofName? (verb : Option Verb) : String → Option Setting
  | "output-dir" => some outputDirectory
  | "include-dir" => some includeDirectory
  | "log-level" => some logLevel
  | "base-theme" => if verb = some .compile then some baseTheme else none
  | _ => none

/-- Whether an option can have a value: a path that is not empty, or for the log level a text. -/
def accepts (value : RawText) : Setting → Bool
  | logLevel => value.text?.isSome
  | _ => value.bytes != []

end Setting

/-- What an argument looks like. -/
inductive Shape where
  /-- A command, an operand or the value of an option. -/
  | plain
  /-- Two dashes, a name, and perhaps a value after an equals sign. -/
  | long (name : String) (value : Option RawText)
  /-- One dash and a letter. -/
  | short (letter : Char)
  /-- The end of the options. -/
  | separator
  deriving DecidableEq, Repr

/-- The byte of a dash. -/
abbrev dash : UInt8 := 0x2D

/-- The byte of an equals sign. -/
abbrev equals : UInt8 := 0x3D

/-- What an argument looks like. A dash alone is plain. -/
def Shape.of (argument : RawText) : Shape :=
  if argument.bytes = [dash, dash] then .separator
  else if [dash, dash].isPrefixOf argument.bytes then
    let option := argument.bytes.drop 2
    let name := RawText.text ⟨option.takeWhile (· ≠ equals)⟩
    match option.dropWhile (· ≠ equals) with
    | [] => .long name none
    | _ :: value => .long name (some ⟨value⟩)
  else if [dash].isPrefixOf argument.bytes then
    match (RawText.text ⟨argument.bytes.drop 1⟩).toList with
    | [] => .plain
    | letter :: _ => .short letter
  else .plain

/-- Why arguments name nothing to run. -/
inductive Stop where
  | version
  | help
  /-- They are no use of the command line. -/
  | misuse
  deriving DecidableEq, Repr

/-- The options given in one place, with their values. -/
abbrev Given := List (Setting × RawText)

/-- The value of an option, if it is given. -/
def Given.get? (given : Given) (setting : Setting) : Option RawText :=
  (given.find? (·.1 = setting)).map Prod.snd

/-- What was read so far. -/
structure Reading where
  /-- The options before the command. -/
  general : Given := []
  verb : Option Verb := none
  /-- The options after the command. -/
  special : Given := []
  operands : List RawText := []
  deriving Repr

namespace Reading

/-- Takes a command or an operand. -/
def word (r : Reading) (word : RawText) : Except Stop Reading :=
  match r.verb with
  | none =>
    match word.text?.bind Verb.ofWord? with
    | some verb => .ok { r with verb := some verb }
    | none => .error .misuse
  | some verb =>
    if verb.takesMore r.operands.length && verb.accepts word then
      .ok { r with operands := r.operands ++ [word] }
    else .error .misuse

/-- Takes an operand after the end of the options. -/
def operand (r : Reading) (word : RawText) : Except Stop Reading :=
  if r.verb = none then .error .misuse else r.word word

/-- Adds an option, which must not be there yet. -/
def addTo (given : Given) (setting : Setting) (value : RawText) : Except Stop Given :=
  if (given.get? setting).isSome || !setting.accepts value then .error .misuse
  else .ok ((setting, value) :: given)

/-- Takes an option. -/
def option (r : Reading) (setting : Setting) (value : RawText) : Except Stop Reading :=
  match r.verb with
  | none => (addTo r.general setting value).map ({ r with general := · })
  | some _ => (addTo r.special setting value).map ({ r with special := · })

/-- What a request for information means where it stands; only the program has a version. -/
def flag (r : Reading) (name : String) : Stop :=
  if name = "help" || name = "h" then .help
  else if (name = "version" || name = "V") && r.verb = none then .version
  else .misuse

/-- What a word asking for help means with the arguments after it: at most one may name a topic. -/
def helpOn : List RawText → Stop
  | [] => .help
  | [topic] =>
    if topic = "help" ∨ (topic.text?.bind Verb.ofWord?).isSome then .help else .misuse
  | _ => .misuse

/-- Reads arguments from left to right. -/
def read (r : Reading) : List RawText → Except Stop Reading
  | [] => .ok r
  | argument :: rest =>
    match Shape.of argument with
    | .plain =>
      if r.verb = none ∧ argument = "help" then .error (helpOn rest)
      else
        match r.word argument with
        | .ok r => read r rest
        | .error stop => .error stop
    | .separator => rest.foldlM operand r
    | .short letter => .error (r.flag (String.singleton letter))
    | .long name value =>
      match Setting.ofName? r.verb name with
      | none => .error (if value = none then r.flag name else .misuse)
      | some setting =>
        match value, rest with
        | some value, rest =>
          match r.option setting value with
          | .ok r => read r rest
          | .error stop => .error stop
        | none, next :: rest =>
          if Shape.of next = .plain then
            match r.option setting next with
            | .ok r => read r rest
            | .error stop => .error stop
          else .error .misuse
        | none, [] => .error .misuse

/-- The value of an option in the end: the one after the command comes before the other. -/
def value? (r : Reading) (setting : Setting) : Option RawText :=
  (r.special.get? setting).or (r.general.get? setting)

/-- Whether an option was given both before and after the command. -/
def givenTwice (r : Reading) (setting : Setting) : Bool :=
  (r.special.get? setting).isSome && (r.general.get? setting).isSome

/--
The value of an option that the surroundings may give. An empty one there is a misuse in every place
where the option is not given.
-/
def valueOr (r : Reading) (setting : Setting) (surrounding : Option RawText) :
    Except Stop (Option RawText) :=
  if surrounding = some ⟨[]⟩ && !r.givenTwice setting then .error .misuse
  else .ok ((r.value? setting).or surrounding)

end Reading

/-- A command with its operands. -/
inductive Command where
  | compile (files : List Path)
  | delete (names : List String)
  | new (path : Path)
  | list
  deriving DecidableEq, Repr

/-- The command of a verb and its operands. -/
def Command.of? : Verb → List RawText → Option Command
  | .compile, files => if files = [] then none else some (compile (files.map (⟨·⟩)))
  | .delete, names => if names = [] then none else some (delete (names.map (·.text)))
  | .new, [path] => some (new ⟨path⟩)
  | .list, [] => some list
  | _, _ => none

/-- A command and where it reads and writes. -/
structure Invocation where
  command : Command
  setup : Setup

/-- What the arguments ask for. -/
def Invocation.ofArguments (env : Environment) (arguments : List RawText) :
    Except Stop Invocation := do
  let r ← Reading.read {} arguments
  let output ← r.valueOr .outputDirectory env.outputDirectory
  let includes ← r.valueOr .includeDirectory env.includeDirectory
  match r.verb.bind (Command.of? · r.operands) with
  | none => .error .misuse
  | some command =>
    let path (raw : Option RawText) : Option Path := raw.map (⟨·⟩)
    return ⟨command, .complete env (path output) (path includes) (path (r.value? .baseTheme))⟩

end Highlight.CommandLine
