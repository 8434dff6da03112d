import DocumentMerge.Text.Basic

/-!
# Command lines

A command line names the template and the file for the result, and may give data, assignments and
a configuration.  Options have long names and partly short ones.  The value of an option is the
next argument, unless that looks like an option itself, or is attached to the option.  Behind `--`
every argument is a path.

`Request.ofArguments` reads a command line from left to right.  The first fault, or the first
request for the version or for help, decides what is answered.
-/

namespace DocumentMerge.Command

/-- The options that have a value. -/
inductive Setting where
  | data
  | assignment
  | output
  | config
  | left
  | right
  | directory
  deriving DecidableEq, Repr

/-- The options that have none. -/
inductive Switch where
  | verbose
  | version
  | help
  deriving DecidableEq, Repr

/-- An option. -/
inductive Flag where
  | setting (s : Setting)
  | switch (s : Switch)
  deriving DecidableEq, Repr

/-- The option of a long name. -/
def Flag.ofName? (name : Text) : Option Flag :=
  [("data", setting .data), ("set", setting .assignment), ("output", setting .output),
    ("config", setting .config), ("left", setting .left), ("right", setting .right),
    ("tmp-dir", setting .directory), ("verbose", switch .verbose), ("version", switch .version),
    ("help", switch .help)].findSome? fun (known, flag) =>
      if known.toList = name then some flag else none

/-- The option of a short name. -/
def Flag.ofLetter? : Char → Option Flag
  | 'd' => some (.setting .data)
  | 's' => some (.setting .assignment)
  | 'o' => some (.setting .output)
  | 'c' => some (.setting .config)
  | 'v' => some (.switch .verbose)
  | 'V' => some (.switch .version)
  | 'h' => some (.switch .help)
  | _ => none

/-- What has been read of a command line. -/
structure Draft where
  template : Option Text
  data : Option Text
  /-- The assignments in order. -/
  assignments : List Text
  output : Option Text
  config : Option Text
  left : Option Text
  right : Option Text
  directory : Option Text
  deriving DecidableEq, Repr

/-- Nothing has been read. -/
def Draft.empty : Draft := ⟨none, none, [], none, none, none, none, none⟩

/-- Gives a value that may be given once. -/
def once (present : Option Text) (value : Text) : Option (Option Text) :=
  match present with
  | none => some (some value)
  | some _ => none

/-- Gives a path, which must not be empty, once. -/
def oncePath (present : Option Text) (value : Text) : Option (Option Text) :=
  if value.isEmpty then none else once present value

/-- Gives an option its value. -/
def Draft.set? (d : Draft) (value : Text) : Setting → Option Draft
  | .data => (oncePath d.data value).map fun data => { d with data }
  | .assignment => some { d with assignments := d.assignments ++ [value] }
  | .output => (oncePath d.output value).map fun output => { d with output }
  | .config => (oncePath d.config value).map fun config => { d with config }
  | .left => (once d.left value).map fun left => { d with left }
  | .right => (once d.right value).map fun right => { d with right }
  | .directory => (oncePath d.directory value).map fun directory => { d with directory }

/-- Takes an argument that belongs to no option. -/
def Draft.setTemplate? (d : Draft) (value : Text) : Option Draft :=
  (oncePath d.template value).map fun template => { d with template }

/-- What a merge needs. -/
structure Arguments where
  template : Text
  data : Option Text
  assignments : List Text
  output : Text
  config : Option Text
  left : Option Text
  right : Option Text
  directory : Option Text
  deriving DecidableEq, Repr

/-- What a command line asks for. -/
inductive Request where
  | merge (arguments : Arguments)
  | version
  | help
  /-- The command line cannot be understood. -/
  | misuse
  deriving DecidableEq, Repr

namespace Request

/-- The request of a command line that was read to its end. -/
def ofDraft (d : Draft) : Request :=
  match d.template, d.output with
  | some template, some output =>
    .merge ⟨template, d.data, d.assignments, output, d.config, d.left, d.right, d.directory⟩
  | _, _ => .misuse

/-- Takes arguments that belong to no option. -/
def ofPaths (d : Draft) : List Text → Request
  | [] => ofDraft d
  | path :: paths =>
    match d.setTemplate? path with
    | some d => ofPaths d paths
    | none => .misuse

/-- What short options in one argument come to. -/
inductive Cluster where
  /-- All of them were switches without an effect on the merge. -/
  | done
  /-- The last one has the rest of the argument as its value. -/
  | attached (s : Setting) (value : Text)
  /-- The last one has its value in the next argument. -/
  | waiting (s : Setting)
  | decided (r : Request)

/-- Reads short options.  An attached value may stand behind an equals sign. -/
def cluster : Text → Cluster
  | [] => .done
  | c :: cs =>
    match Flag.ofLetter? c with
    | some (.switch .verbose) => cluster cs
    | some (.switch .version) => .decided .version
    | some (.switch .help) => .decided .help
    | some (.setting s) =>
      match cs with
      | [] => .waiting s
      | '=' :: value => .attached s value
      | value => .attached s value
    | none => .decided .misuse

/-- Whether an argument can be the value of the option before it. -/
def isValue (argument : Text) : Bool :=
  argument.head? != some '-' || argument == ['-']

/-- Reads arguments one after the other.  An option that waits for its value is `pending`. -/
def ofRest (d : Draft) (pending : Option Setting) : List Text → Request
  | [] => if pending.isSome then .misuse else ofDraft d
  | argument :: rest =>
    let setting (s : Setting) (value : Text) : Request :=
      match d.set? value s with
      | some d => ofRest d none rest
      | none => .misuse
    match pending with
    | some s => if isValue argument then setting s argument else .misuse
    | none =>
      match argument with
      | ['-', '-'] => ofPaths d rest
      | '-' :: '-' :: long =>
        let (name, value?) :=
          match Text.splitOnce? (· == '=') long with
          | some (name, value) => (name, some value)
          | none => (long, none)
        match Flag.ofName? name, value? with
        | some (.setting s), some value => setting s value
        | some (.setting s), none => ofRest d (some s) rest
        | some (.switch .verbose), none => ofRest d none rest
        | some (.switch .version), none => .version
        | some (.switch .help), none => .help
        | _, _ => .misuse
      | '-' :: c :: short =>
        match cluster (c :: short) with
        | .done => ofRest d none rest
        | .attached s value => setting s value
        | .waiting s => ofRest d (some s) rest
        | .decided r => r
      | path =>
        match d.setTemplate? path with
        | some d => ofRest d none rest
        | none => .misuse

/-- Reads a command line. -/
def ofArguments (arguments : List Text) : Request :=
  ofRest Draft.empty none arguments

end Request

end DocumentMerge.Command
