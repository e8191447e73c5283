import MarkupAnalysis.Text.Basic

/-! # TOML values

The values of TOML, and how a table grows while a document is read. A table remembers how it came about,
because that decides whether it may still be added to.

* **`TableOrigin`**, **`Toml`** — a value.
* **`Toml.modifyAt`** — changes the table that a path of keys leads to.
* **`Toml.insertAt`**, **`Toml.openTable`**, **`Toml.appendTable`** — a key with its value, a table under
  a header, and one more table of an array of tables. -/

namespace MarkupAnalysis

/-- How a table came about. -/
inductive TableOrigin where
  /-- It was written between braces. -/
  | inline
  /-- It was opened by a header. -/
  | header
  /-- It was named on the way by a dotted key. -/
  | dotted
  /-- It was named on the way by a header. -/
  | implied
deriving DecidableEq, Repr

/-- A TOML value. Numbers with a point and dates are kept as they are written. -/
inductive Toml where
  /-- A string. -/
  | string (text : Text)
  /-- A whole number. -/
  | integer (value : Int)
  /-- A number with a point or an exponent, or one of the special ones. -/
  | float (text : Text)
  /-- A truth value. -/
  | boolean (value : Bool)
  /-- A date, a time or both. -/
  | dateTime (text : Text)
  /-- A list of values. -/
  | array (items : List Toml)
  /-- A table. -/
  | table (origin : TableOrigin) (entries : List (Text × Toml))
  /-- The tables that are opened one after the other by the same header in double brackets. -/
  | tables (elements : List Toml)

namespace Toml

/-- The table without entries. -/
def emptyTable (origin : TableOrigin) : Toml := table origin []

/-- The value of a key of a table. -/
def get? : Toml → Text → Option Toml
  | table _ entries, key => entries.lookup key
  | _, _ => none

/-- The table with a value for a key, which takes the place of the key's value if it has one. -/
def put (t : Toml) (key : Text) (value : Toml) : Toml :=
  match t with
  | table origin entries =>
    if (entries.lookup key).isSome then
      table origin (entries.map fun entry => if entry.1 = key then (key, value) else entry)
    else table origin (entries ++ [(key, value)])
  | other => other

/-- Entries in which the value of a key that is there has been replaced give the new value. -/
theorem lookup_replace (entries : List (Text × Toml)) (key : Text) (value : Toml)
    (known : (entries.lookup key).isSome = true) :
    (entries.map fun entry => if entry.1 = key then (key, value) else entry).lookup key
      = some value := by
  induction entries with
  | nil => simp at known
  | cons entry entries ih =>
    obtain ⟨name, old⟩ := entry
    by_cases same : name = key
    · simp [same]
    · have other : (key == name) = false := beq_eq_false_iff_ne.2 (Ne.symm same)
      simp only [List.lookup_cons, other] at known
      simpa [same, List.lookup_cons, other] using ih known

/-- What is put under a key of a table is found there. -/
theorem get?_put (origin : TableOrigin) (entries : List (Text × Toml)) (key : Text) (value : Toml) :
    ((table origin entries).put key value).get? key = some value := by
  rw [put]
  split
  · rename_i known
    exact lookup_replace entries key value known
  · rename_i unknown
    have absent : entries.lookup key = none := Option.not_isSome_iff_eq_none.1 unknown
    simp [get?, List.lookup_append, absent]

/-! ## Growing -/

/-- Who names the tables on the way. -/
inductive Naming where
  /-- A dotted key, which may not add to tables that are complete. -/
  | key
  /-- A header. -/
  | header
deriving DecidableEq, Repr

/-- The origin of a table that is made on the way. -/
def Naming.origin : Naming → TableOrigin
  | key => .dotted
  | header => .implied

/-- Whether a path may go through a table. -/
def Naming.mayEnter : Naming → TableOrigin → Bool
  | _, .inline => false
  | key, .header => false
  | _, _ => true

/-- Changes the table that a path of keys leads to. Tables that are missing on the way are made; of an
array of tables the last one is meant; anything else ends the path. -/
def modifyAt (naming : Naming) (change : Toml → Option Toml) : (path : List Text) → Toml → Option Toml
  | [], t => change t
  | key :: path, t =>
    match t.get? key with
    | none =>
      (modifyAt naming change path (emptyTable naming.origin)).map fun child => t.put key child
    | some (table origin entries) =>
      if naming.mayEnter origin then
        (modifyAt naming change path (table origin entries)).map fun child => t.put key child
      else none
    | some (tables elements) =>
      match elements.getLast? with
      | none => none
      | some last =>
        (modifyAt naming change path last).map fun child =>
          t.put key (tables (elements.dropLast ++ [child]))
    | some _ => none

/-- Adds a key that is not there yet. -/
def insertNew (key : Text) (value : Toml) (t : Toml) : Option Toml :=
  if (t.get? key).isSome then none else some (t.put key value)

/-- Whether a table was named on the way by a dotted key. -/
def isDotted : Toml → Bool
  | table .dotted _ => true
  | _ => false

/-- Adds a value under a dotted key. Only tables that dotted keys have made may be reached this way. -/
def insertAt (path : List Text) (key : Text) (value : Toml) (t : Toml) : Option Toml :=
  modifyAt .key
    (fun t => if t.isDotted = path.isEmpty then none else insertNew key value t) path t

/-- Opens the table of a header: a new one, or one that other headers have named on the way. Its keys are
added by `fill`. -/
def openTable (path : List Text) (key : Text) (fill : Toml → Option Toml) (t : Toml) : Option Toml :=
  modifyAt .header
    (fun t =>
      match t.get? key with
      | none => (fill (emptyTable .header)).map fun child => t.put key child
      -- a table that no header has opened yet keeps what other headers have put into it
      | some (table .implied entries) => (fill (table .header entries)).map fun child => t.put key child
      | some _ => none)
    path t

/-- Adds one more table to an array of tables. Its keys are added by `fill`. -/
def appendTable (path : List Text) (key : Text) (fill : Toml → Option Toml) (t : Toml) : Option Toml :=
  modifyAt .header
    (fun t =>
      match t.get? key with
      | none => (fill (emptyTable .header)).map fun child => t.put key (tables [child])
      | some (tables elements) =>
        (fill (emptyTable .header)).map fun child => t.put key (tables (elements ++ [child]))
      | some _ => none)
    path t

end Toml

end MarkupAnalysis
