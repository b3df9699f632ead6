import SerialManifest.Settings.Token

namespace SerialManifest.Settings

inductive Value where
  | text (value : String)
  | flag (value : Bool)
  | texts (values : List String)
  | table (entries : List (String × List String))
deriving DecidableEq, Repr

def Value.isSound : Value → Bool
  | .table entries => decide (entries.map Prod.fst).Nodup
  | _ => true

/-- One line of a document: the header of a table, a binding, or an entry of a table that is named along
with it. -/
inductive Statement where
  | header (table : String)
  | binding (name : String) (value : Value)
  | entry (table name : String) (value : Value)
deriving DecidableEq, Repr

def Token.name? : Token → Option String
  | .word name => some name
  | .text name => some name
  | _ => none

namespace Statement

/-- Reads a list up to its closing bracket; `comma` says that a comma has to come before the next text. -/
def readTexts (comma : Bool) : List Token → Option (List String × List Token)
  | .lineBreak :: rest => readTexts comma rest
  | .closeBracket :: rest => some ([], rest)
  | .comma :: rest => if comma then readTexts false rest else none
  | .text value :: rest | .block value :: rest =>
    if comma then none else (readTexts true rest).map fun (values, left) => (value :: values, left)
  | _ => none

theorem length_readTexts {comma : Bool} {tokens left : List Token} {values : List String}
    (h : readTexts comma tokens = some (values, left)) : left.length < tokens.length := by
  fun_induction readTexts comma tokens generalizing values with
  | case1 comma rest ih => exact Nat.lt_succ_of_lt (ih h)
  | case2 => cases h; simp
  | case3 rest ih => exact Nat.lt_succ_of_lt (ih h)
  | case4 => cases h
  | case5 => cases h
  | case6 _ _ _ _ ih =>
    obtain ⟨⟨v, l⟩, hr, he⟩ := Option.map_eq_some_iff.1 h
    cases he
    exact Nat.lt_succ_of_lt (ih hr)
  | case7 => cases h
  | case8 _ _ _ _ ih =>
    obtain ⟨⟨v, l⟩, hr, he⟩ := Option.map_eq_some_iff.1 h
    cases he
    exact Nat.lt_succ_of_lt (ih hr)
  | case9 => cases h

/-- Reads the entries of a table up to its closing brace, at least one. -/
def readEntries : List Token → Option (List (String × List String) × List Token)
  | token :: .equals :: .openBracket :: rest =>
    match token.name?, _ : readTexts false rest with
    | some name, some (values, .closeBrace :: left) => some ([(name, values)], left)
    | some name, some (values, .comma :: more) =>
      (readEntries more).map fun (entries, left) => ((name, values) :: entries, left)
    | _, _ => none
  | _ => none
termination_by tokens => tokens.length
decreasing_by
  have := length_readTexts ‹_›
  simp only [List.length_cons] at this ⊢
  omega

def readValue : List Token → Option (Value × List Token)
  | .text value :: rest => some (.text value, rest)
  | .block value :: rest => some (.text value, rest)
  | .word name :: rest =>
    if name = "true" then some (.flag true, rest)
    else if name = "false" then some (.flag false, rest)
    else none
  | .openBracket :: rest => (readTexts false rest).map fun (values, left) => (.texts values, left)
  | .openBrace :: .closeBrace :: rest => some (.table [], rest)
  | .openBrace :: rest => (readEntries rest).map fun (entries, left) => (.table entries, left)
  | _ => none

def read : List Token → Option (Statement × List Token)
  | .openBracket :: token :: .closeBracket :: rest => token.name?.map fun table => (.header table, rest)
  | first :: .equals :: rest => do
    let name ← first.name?
    let (value, left) ← readValue rest
    return (.binding name value, left)
  | first :: .dot :: second :: .equals :: rest => do
    let table ← first.name?
    let name ← second.name?
    let (value, left) ← readValue rest
    return (.entry table name value, left)
  | _ => none

theorem length_readEntries {tokens left : List Token} {entries : List (String × List String)}
    (h : readEntries tokens = some (entries, left)) : left.length ≤ tokens.length := by
  fun_induction readEntries tokens generalizing entries with
  | case1 token rest name values after hn hr =>
    cases h
    have := length_readTexts ‹_›
    simp only [List.length_cons] at this ⊢
    omega
  | case2 token rest name values more hn hr ih =>
    obtain ⟨⟨e, l⟩, hm, he⟩ := Option.map_eq_some_iff.1 h
    cases he
    have := ih hm
    have := length_readTexts ‹_›
    simp only [List.length_cons] at this ⊢
    omega
  | case3 => cases h
  | case4 => cases h

theorem length_readValue {tokens left : List Token} {value : Value}
    (h : readValue tokens = some (value, left)) : left.length ≤ tokens.length := by
  unfold readValue at h
  split at h
  · cases h; simp
  · cases h; simp
  · split at h
    · cases h; simp
    split at h
    · cases h; simp
    · cases h
  · obtain ⟨⟨v, l⟩, hr, he⟩ := Option.map_eq_some_iff.1 h
    cases he
    exact Nat.le_succ_of_le (Nat.le_of_lt (length_readTexts hr))
  · cases h
    simp only [List.length_cons]
    omega
  · obtain ⟨⟨e, l⟩, hr, he⟩ := Option.map_eq_some_iff.1 h
    cases he
    exact Nat.le_succ_of_le (length_readEntries hr)
  · cases h

theorem length_read {tokens left : List Token} {statement : Statement}
    (h : read tokens = some (statement, left)) : left.length ≤ tokens.length := by
  unfold read at h
  split at h
  · obtain ⟨t, _, he⟩ := Option.map_eq_some_iff.1 h
    cases he
    simp only [List.length_cons]
    omega
  · obtain ⟨name, _, h⟩ := Option.bind_eq_some_iff.1 h
    obtain ⟨⟨value, l⟩, hv, h⟩ := Option.bind_eq_some_iff.1 h
    cases h
    have := length_readValue hv
    simp only [List.length_cons]
    omega
  · obtain ⟨table, _, h⟩ := Option.bind_eq_some_iff.1 h
    obtain ⟨name, _, h⟩ := Option.bind_eq_some_iff.1 h
    obtain ⟨⟨value, l⟩, hv, h⟩ := Option.bind_eq_some_iff.1 h
    cases h
    have := length_readValue hv
    simp only [List.length_cons]
    omega
  · cases h

def readAll : List Token → Option (List Statement)
  | [] => some []
  | .lineBreak :: rest => readAll rest
  | tokens =>
    match _ : read tokens with
    | some (statement, []) => some [statement]
    | some (statement, .lineBreak :: rest) => (readAll rest).map (statement :: ·)
    | _ => none
termination_by tokens => tokens.length
decreasing_by
  · simp
  · have := length_read ‹_›
    simp only [List.length_cons] at this
    omega

end Statement

/-- The bindings of a document as far as it has been read. Tables in `extensible` take more entries that
name the table; `current` is the table whose header came last. -/
structure Bindings where
  values : List (String × Value)
  extensible : List String
  current : Option String
deriving DecidableEq, Repr

namespace Bindings

def empty : Bindings := ⟨[], [], none⟩

def define (bindings : Bindings) (name : String) (value : Value) : Option Bindings :=
  if name ∈ bindings.values.map Prod.fst ∨ !value.isSound then none
  else some { bindings with values := bindings.values ++ [(name, value)] }

def addEntry (bindings : Bindings) (table name : String) (value : Value) : Option Bindings :=
  match bindings.values.lookup table, value with
  | some (.table entries), .texts values =>
    if name ∈ entries.map Prod.fst then none
    else
      let extended := Value.table (entries ++ [(name, values)])
      some { bindings with
        values := bindings.values.map fun b => if b.1 = table then (table, extended) else b }
  | _, _ => none

def add (bindings : Bindings) : Statement → Option Bindings
  | .header table => do
    let extended ← bindings.define table (.table [])
    return { extended with current := some table }
  | .binding name value =>
    match bindings.current with
    | none => bindings.define name value
    | some table => bindings.addEntry table name value
  | .entry table name value =>
    if bindings.current.isSome then none
    else if table ∈ bindings.extensible then bindings.addEntry table name value
    else do
      let extended ← bindings.define table (.table [])
      ({ extended with extensible := table :: extended.extensible }).addEntry table name value

def ofDocument? (document : String) : Option (List (String × Value)) := do
  let tokens ← Token.ofDocument document
  let statements ← Statement.readAll tokens
  let bindings ← statements.foldlM add empty
  return bindings.values

end Bindings

end SerialManifest.Settings
