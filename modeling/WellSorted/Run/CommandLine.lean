import WellSorted.Run.Execution

/-!
# The command line

Files to check, and flags for the configuration. A flag with a value is written `--flag value` or
`--flag=value`; it may stand after files, but only once. `--` ends the flags. Paths are not empty.
-/

namespace WellSorted.CommandLine

/-- The flags with a value. -/
inductive Setting where
  | theories
  | logics
  | theoryExt
  | logicExt
deriving DecidableEq, Repr

namespace Setting

def flag : Setting → String
  | theories => "--theories"
  | logics => "--logics"
  | theoryExt => "--theory-ext"
  | logicExt => "--logic-ext"

def ofFlag? (flag : String) : Option Setting :=
  [theories, logics, theoryExt, logicExt].find? (·.flag == flag)

/-- Whether a setting takes a value; directories need a name. -/
def accepts (value : String) : Setting → Bool
  | theories => !value.isEmpty
  | logics => !value.isEmpty
  | _ => true

end Setting

/-- What an argument is, before `--`. -/
inductive Argument where
  | file (path : String)
  | noCore
  | setting (s : Setting)
  | settingTo (s : Setting) (value : String)
  | help
  | endOfFlags
  | unknown
deriving DecidableEq, Repr

/-- The part before the first `=` and the part after it. -/
def splitValue (seen : List Char) : List Char → Option (String × String)
  | [] => none
  | c :: rest =>
    if c = '=' then some (String.ofList seen.reverse, String.ofList rest)
    else splitValue (c :: seen) rest

def Argument.ofLong (text : String) : Argument :=
  if text = "--no-core" then .noCore
  else if text = "--help" then .help
  else
    match Setting.ofFlag? text, splitValue [] text.toList with
    | some s, _ => .setting s
    | none, some (flag, value) =>
      match Setting.ofFlag? flag with
      | some s => .settingTo s value
      | none => .unknown
    | none, none => .unknown

def Argument.ofText (text : String) : Argument :=
  match text.toList with
  | ['-', '-'] => .endOfFlags
  | '-' :: '-' :: _ => .ofLong text
  | ['-'] => .file text
  | '-' :: 'h' :: _ => .help
  | '-' :: _ => .unknown
  | _ => .file text

/-- Why there is nothing to run. -/
inductive Usage where
  | help
  | mistake
deriving DecidableEq, Repr

structure Options where
  noCore : Bool
  settings : List (Setting × String)
  files : List String

namespace Options

def none : Options := ⟨false, [], []⟩

def get (o : Options) (s : Setting) (standard : String) : String :=
  (o.settings.lookup s).getD standard

def config (o : Options) : Config where
  theoriesDir := o.get .theories Config.standard.theoriesDir
  logicsDir := o.get .logics Config.standard.logicsDir
  theoryExt := o.get .theoryExt Config.standard.theoryExt
  logicExt := o.get .logicExt Config.standard.logicExt
  coreEnabled := !o.noCore

def set (o : Options) (s : Setting) (value : String) : Except Usage Options :=
  if (o.settings.lookup s).isSome || !s.accepts value then .error .mistake
  else .ok { o with settings := (s, value) :: o.settings }

def setNoCore (o : Options) : Except Usage Options :=
  if o.noCore then .error .mistake else .ok { o with noCore := true }

def addFile (o : Options) (path : String) : Except Usage Options :=
  if path.isEmpty then .error .mistake else .ok { o with files := o.files ++ [path] }

/-- At least one file is needed. -/
def finish (o : Options) : Except Usage Options :=
  if o.files.isEmpty then .error .mistake else .ok o

/-- Read arguments after others. -/
def parseFrom (o : Options) : List String → Except Usage Options
  | [] => o.finish
  | arg :: rest =>
    match Argument.ofText arg with
    | .file path => do parseFrom (← o.addFile path) rest
    | .noCore => do parseFrom (← o.setNoCore) rest
    | .settingTo s value => do parseFrom (← o.set s value) rest
    | .help => .error .help
    | .unknown => .error .mistake
    | .endOfFlags => do (← rest.foldlM addFile o).finish
    | .setting s =>
      match rest with
      | [] => .error .mistake
      | value :: rest =>
        match Argument.ofText value with
        | .file value => do parseFrom (← o.set s value) rest
        | _ => .error .mistake

def parse (args : List String) : Except Usage Options := parseFrom none args

end Options

structure Result where
  status : Nat
  output : String
deriving DecidableEq, Repr

/-- What a failed check of a file prints. -/
def failureOf (setup : Setup) (path : String) : Option String :=
  match checkFile setup path with
  | .ok _ => none
  | .error failure => some (failure.message ++ "\n")

/-- Check the files of the options. -/
def check (files : Files) (o : Options) : Result :=
  let failures := o.files.filterMap (failureOf ⟨o.config, files⟩)
  ⟨if failures.isEmpty then 0 else 1, String.join failures⟩

/-- The status and the output for some arguments. -/
def run (files : Files) (args : List String) : Result :=
  match Options.parse args with
  | .ok o => check files o
  | .error .help => ⟨0, ""⟩
  | .error .mistake => ⟨2, ""⟩

end WellSorted.CommandLine
