import KeyedStore.Text.Quoted
/-!
Two ways to lay out a value: in a line, its items parted by commas, or in a block, one item after the
other on lines of its own, indented by four and each closed by a comma. What has no items takes one
line in both.
-/
namespace KeyedStore.Text

/-- Items in a line. -/
def row (opening closing : String) (items : List String) : String :=
  opening ++ ", ".intercalate items ++ closing

/-- A word at the end of the last line. -/
def closeWith (word : String) : List String → List String
  | [] => []
  | [last] => [last ++ word]
  | line :: rest => line :: closeWith word rest

/-- The last line of one block and the first of the next, joined by a word. -/
def join (word : String) : List String → List String → List String
  | [], lines => lines
  | [last], [] => [last ++ word]
  | [last], line :: rest => (last ++ word ++ line) :: rest
  | line :: rest, lines => line :: join word rest lines

/-- Items in a block, each given by its lines. -/
def block (opening closing : String) (items : List (List String)) : List String :=
  if items.isEmpty then [opening ++ closing]
  else
    opening :: (items.flatMap fun lines => (closeWith "," lines).map ("    " ++ ·)) ++ [closing]

/-- A record in a line: its name, and its fields with their names. -/
def record (name : String) (fields : List (String × String)) : String :=
  row (name ++ " \x7b ") " \x7d" (fields.map fun (field, value) => field ++ ": " ++ value)

/-- Values that can be laid out both ways. -/
class Shown (α : Type) where
  line : α → String
  block : α → List String := fun value => [line value]

instance : Shown String := { line := quoted }

instance : Shown Nat := { line := Nat.repr }

instance : Shown Int64 := { line := fun value => toString value.toInt }

instance : Shown Bool := { line := fun value => if value then "true" else "false" }

/-- Bytes are shown as numbers in brackets. -/
instance : Shown (List UInt8) where
  line bytes := row "[" "]" (bytes.map fun byte => byte.toNat.repr)
  block bytes := block "[" "]" (bytes.map fun byte => [byte.toNat.repr])

/-- A value that may be absent is shown in a line. -/
instance {α : Type} [Shown α] : Shown (Option α) where
  line
    | none => "None"
    | some value => row "Some(" ")" [Shown.line value]

/-- Entries in a line. -/
def entriesLine {K V : Type} [Shown K] [Shown V] (entries : List (K × V)) : String :=
  row "\x7b" "\x7d" (entries.map fun (key, value) => Shown.line key ++ ": " ++ Shown.line value)

/-- Entries in a block. -/
def entriesBlock {K V : Type} [Shown K] [Shown V] (entries : List (K × V)) : List String :=
  block "\x7b" "\x7d"
    (entries.map fun (key, value) => join ": " (Shown.block key) (Shown.block value))

end KeyedStore.Text
