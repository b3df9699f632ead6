import SerialManifest.CommandLine.Basic

namespace SerialManifest.CommandLine

inductive Parameter where
  | basePath
  | classpath
  | namespaces
  | config
  | summary
deriving DecidableEq, Repr

inductive Switch where
  | quiet
  | help
  | version
deriving DecidableEq, Repr

inductive UsageError where
  | invalidValue
  | unknownArgument
  | argumentConflict
  | tooManyValues
deriving DecidableEq, Repr

inductive Stop where
  | misuse (error : UsageError)
  | help
  | version
deriving DecidableEq, Repr

def Parameter.ofName? : String → Option Parameter
  | "classpath" => some .classpath
  | "namespace" => some .namespaces
  | "config" => some .config
  | "summary" => some .summary
  | _ => none

def Parameter.ofLetter? : Char → Option Parameter
  | 'c' => some .classpath
  | 'n' => some .namespaces
  | _ => none

def Switch.ofName? : String → Option Switch
  | "quiet" => some .quiet
  | "help" => some .help
  | "version" => some .version
  | _ => none

def Switch.ofLetter? : Char → Option Switch
  | 'q' => some .quiet
  | 'h' => some .help
  | 'V' => some .version
  | _ => none

def single (earlier : Option String) (value : String) : Except UsageError (Option String) :=
  if earlier.isSome then .error .argumentConflict
  else if value = "" then .error .invalidValue
  else .ok (some value)

def give (line : CommandLine) (value : String) : Parameter → Except UsageError CommandLine
  | .basePath => return { line with basePath := ← single line.basePath value }
  | .classpath => .ok { line with classpath := line.classpath ++ [value] }
  | .namespaces => .ok { line with namespaces := line.namespaces ++ [value] }
  | .config => return { line with config := ← single line.config value }
  | .summary => return { line with summary := ← single line.summary value }

/-- A reading under way: what has been taken in, the parameter met last with the value for it if one has
come, and whether the argument that stands without an option has been met. -/
structure Reading where
  line : CommandLine
  pending : Option (Parameter × Option String)
  placed : Bool
deriving DecidableEq, Repr

abbrev ReadResult := Except Stop Reading

namespace Reading

def start : Reading := ⟨.empty, none, false⟩

def refuse {α : Type} (error : UsageError) : Except Stop α :=
  .error (.misuse error)

def take (reading : Reading) (parameter : Parameter) (value : String) : ReadResult :=
  match reading.line.give value parameter with
  | .ok line => .ok { reading with line }
  | .error error => refuse error

def settle (reading : Reading) : ReadResult :=
  match reading.pending with
  | none => .ok reading
  | some (_, none) => refuse .invalidValue
  | some (parameter, some value) => { reading with pending := none }.take parameter value

def meet (reading : Reading) (parameter : Parameter) (value : Option String) : ReadResult := do
  let settled ← reading.settle
  match value with
  | some value => settled.take parameter value
  | none => return { settled with pending := some (parameter, none) }

def flip (reading : Reading) (switch : Switch) : ReadResult := do
  let settled ← reading.settle
  match switch with
  | .help => .error .help
  | .version => .error .version
  | .quiet =>
    if settled.line.quiet then refuse .argumentConflict
    else return { settled with line := { settled.line with quiet := true } }

def place (reading : Reading) (value : String) : ReadResult :=
  if reading.placed then refuse .unknownArgument
  else do
    let settled ← reading.settle
    return { settled with pending := some (.basePath, some value), placed := true }

def word (reading : Reading) (value : String) : ReadResult :=
  match reading.pending with
  | some (parameter, none) => .ok { reading with pending := some (parameter, some value) }
  | _ => reading.place value

def long (reading : Reading) (text : List Char) : ReadResult :=
  let name := String.ofList (text.takeWhile (· ≠ '='))
  let value := (text.dropWhile (· ≠ '=')).tail?.map String.ofList
  match Parameter.ofName? name, Switch.ofName? name with
  | some parameter, _ => reading.meet parameter value
  | none, some switch => if value.isSome then refuse .tooManyValues else reading.flip switch
  | none, none => refuse .unknownArgument

/-- The value that directly follows a letter, behind an equals sign or not. -/
def attached : List Char → Option String
  | [] => none
  | c :: rest => some (String.ofList (if c = '=' then rest else c :: rest))

def letters (reading : Reading) : List Char → ReadResult
  | [] => .ok reading
  | letter :: rest =>
    match Parameter.ofLetter? letter, Switch.ofLetter? letter with
    | some parameter, _ => reading.meet parameter (attached rest)
    | none, some switch =>
      match reading.flip switch with
      | .ok flipped => letters flipped rest
      | .error stop => .error stop
    | none, none => refuse .unknownArgument

def argument (reading : Reading) (text : String) : ReadResult :=
  match text.toList with
  | '-' :: '-' :: name => reading.long name
  | '-' :: letter :: others => reading.letters (letter :: others)
  | _ => reading.word text

/-- Meets all arguments. Behind `--` none is an option. What an argument gives is taken in when the next one
begins, so a fault in a value shows no earlier than that. -/
def arguments (reading : Reading) : List String → ReadResult
  | [] => reading.settle
  | text :: rest =>
    if text = "--" then do
      let placed ← rest.foldlM place reading
      placed.settle
    else
      match reading.argument text with
      | .ok next => arguments next rest
      | .error stop => .error stop

end Reading

def ofArguments (arguments : List String) : Except Stop CommandLine :=
  (Reading.start.arguments arguments).map (·.line)

end SerialManifest.CommandLine
