import Rearrange.Datum.Basic
import Rearrange.Text.Quoted

namespace Rearrange.Datum

mutual
/-- A datum as it is shown inside a message. -/
def written : Datum → List Char
  | null => "None".toList
  | bool true => "True".toList
  | bool false => "False".toList
  | integer n => (toString n).toList
  | real x => realLayout.writeFloat x
  | text s => Text.quoted s.toList
  | array items => '[' :: [',', ' '].intercalate (writtenItems items) ++ [']']
  | object fields => '\x7b' :: [',', ' '].intercalate (writtenFields fields) ++ ['\x7d']

/-- Each of several data as it is shown inside a message. -/
def writtenItems : List Datum → List (List Char)
  | [] => []
  | d :: ds => d.written :: writtenItems ds

/-- Each of several fields as it is shown inside a message. -/
def writtenFields : List (String × Datum) → List (List Char)
  | [] => []
  | (k, v) :: fields => (Text.quoted k.toList ++ [':', ' '] ++ v.written) :: writtenFields fields
end

/-- A datum inside a message, as a string. -/
def quote (d : Datum) : String :=
  String.ofList d.written

end Rearrange.Datum
