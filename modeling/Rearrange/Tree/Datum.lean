import Rearrange.Datum.Written
import Rearrange.Tree.Flat

namespace Rearrange

/-- Why a node cannot be made. -/
inductive FragmentError where
  /-- The object names none of the four kinds. -/
  | badKind (data : Datum)
  /-- The text of a literal is missing, is no text, or is neither a number nor a variable. -/
  | invalidLiteral (given : Datum)
  /-- A literal would have children. -/
  | literalWithChildren
  /-- A group or chain would have text of its own. -/
  | textOutsideLiteral (kind : Kind)

/-- The message shown for a node that cannot be made. -/
def FragmentError.message : FragmentError → String
  | badKind data => "Bad fragment kind in " ++ data.quote
  | invalidLiteral given => "Invalid literal text: " ++ given.quote
  | literalWithChildren => "Literal fragments cannot have children"
  | textOutsideLiteral kind => "Only literal fragments carry text, got " ++ kind.name

/-- Why data are no tree. -/
inductive DatumError where
  /-- Something that must be an object or a list is neither. -/
  | wrongType
  /-- A node cannot be made. -/
  | fragment (error : FragmentError)

/-- The literal with the given text, which must be there and be text. -/
def Literal.ofDatum (given : Datum) : Except FragmentError Literal :=
  match given with
  | .text s =>
    match Literal.ofText? s.toList with
    | some l => .ok l
    | none => .error (.invalidLiteral given)
  | _ => .error (.invalidLiteral given)

/-- What a node is: a literal with its text, or a branch of a shape. -/
inductive Head where
  | literal (l : Literal)
  | branch (shape : Shape)

/-- The head of a node of a kind, with the text given for it. A branch takes no text, a literal
has no children. -/
def Kind.head (kind : Kind) (given : Datum) (childless : Bool) : Except FragmentError Head :=
  match kind with
  | .literal => do
    let l ← Literal.ofDatum given
    if childless then return .literal l else throw .literalWithChildren
  | .branch shape =>
    match given with
    | .null => return .branch shape
    | _ => throw (.textOutsideLiteral kind)

/-- The kind that an object names. -/
def Kind.ofFields (fields : List (String × Datum)) : Except FragmentError Kind :=
  match fields.lookup "kind" with
  | some (.text name) =>
    match Kind.ofName? name with
    | some kind => .ok kind
    | none => .error (.badKind (.object fields))
  | _ => .error (.badKind (.object fields))

namespace Tree

variable {α : Type}

mutual
/-- The tree as data. -/
def toDatum : Tree α → Datum
  | literal _ l =>
    .object [("kind", .text Kind.literal.name), ("literal", .text (String.ofList l.text)),
      ("children", .array [])]
  | branch _ s cs =>
    .object [("kind", .text (Kind.branch s).name), ("children", .array (toDatumAll cs))]

/-- The trees as data. -/
def toDatumAll : List (Tree α) → List Datum
  | [] => []
  | c :: cs => c.toDatum :: toDatumAll cs
end

theorem toDatumAll_eq_map (cs : List (Tree α)) : toDatumAll cs = cs.map toDatum := by
  induction cs with
  | nil => rfl
  | cons c cs ih => simp [toDatumAll, ih]

end Tree

end Rearrange
