import Rearrange.CommandLine.Scanner
import Rearrange.Proofs.Check
import Rearrange.Proofs.CommandLine.Run

namespace Rearrange.CommandLine

variable {ε : Type} {front : FrontEnd ε} {env : Environment} {files : Files}
  {args rest : List (List Char)} {threshold : Threshold}

end Rearrange.CommandLine
