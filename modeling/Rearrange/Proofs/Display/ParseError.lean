import Rearrange.Display
import Rearrange.Proofs.Parse.Reading
import Rearrange.Proofs.Text.Quoted

namespace Rearrange

open Markup (Piece pieces)

/-- A message ends with a letter or a quotation mark. -/
private theorem ParseError.getLast?_message_ne (e : ParseError) :
    e.message.toList.getLast? ≠ some '\\' := by
  cases e with
  | unbalanced source =>
    obtain ⟨body, hbody⟩ := Text.exists_quoted_eq source
    have hmessage : (unbalanced source).message.toList =
        "unbalanced parentheses in ".toList ++ Text.quoted source :=
      String.toList_append.trans (congrArg _ String.toList_ofList)
    rw [hmessage, hbody, List.getLast?_append, List.getLast?_concat, Option.some_or]
    exact fun h => (Text.quotationMark_ne source).1 (Option.some.inj h)
  | emptyGroup => decide
  | emptyFragment => decide
  | invalidLiteral text =>
    have hmessage : (invalidLiteral text).message =
        "invalid literal \"" ++ String.ofList text ++ "\"" := rfl
    have hmark : "\"".toList.getLast? = some '"' := by decide
    rw [hmessage, String.toList_append, List.getLast?_append, hmark, Option.some_or]
    decide

/-- The name of an error has nothing to escape. -/
theorem ParseError.notMem_name (e : ParseError) : '\\' ∉ e.name.toList ∧ '[' ∉ e.name.toList := by
  cases e with
  | unbalanced source =>
    rw [name]
    decide
  | emptyGroup => decide
  | emptyFragment => decide
  | invalidLiteral text =>
    rw [name]
    decide

namespace Display

/-- The tag that opens in the quoted text and is closed in the defect, if there is one. -/
def strayTag? (text : List Char) (e : ParseError) : Option (List Char) :=
  Markup.joinedTag? (Text.quoted text) (':' :: ' ' :: e.message.toList)

/-- What stands after the defect: red ends, and the name of the defect is dimmed. -/
private theorem pieces_name (e : ParseError) :
    pieces ('[' :: '/' :: "red".toList ++
        ']' :: ' ' :: Markup.styled "dim" ('(' :: e.name.toList ++ [')'])) =
      .tag "/red".toList :: .char ' ' :: .tag "dim".toList ::
        (('(' :: e.name.toList ++ [')']).map Piece.char ++ [.tag "/dim".toList]) := by
  have hplain : '\\' ∉ '(' :: e.name.toList ++ [')'] ∧ '[' ∉ '(' :: e.name.toList ++ [')'] := by
    obtain ⟨hescape, hopen⟩ := e.notMem_name
    simp [hescape, hopen]
  have hdim : pieces (Markup.styled "dim" ('(' :: e.name.toList ++ [')'])) =
      .tag "dim".toList ::
        (('(' :: e.name.toList ++ [')']).map Piece.char ++ [.tag "/dim".toList]) := by
    have hend : pieces ('[' :: '/' :: "dim".toList ++ [']']) = [.tag "/dim".toList] :=
      Markup.pieces_tag (by decide) []
    rw [← List.append_nil (Markup.styled _ _), Markup.pieces_styled (by decide),
      Markup.pieces_append_of_notMem hplain.1 hplain.2, hend]
  have hblank : pieces (' ' :: Markup.styled "dim" ('(' :: e.name.toList ++ [')'])) =
      .char ' ' :: pieces (Markup.styled "dim" ('(' :: e.name.toList ++ [')'])) :=
    Markup.pieces_append_of_notMem (a := [' ']) (by decide) (by decide) _
  rw [← hdim, ← hblank]
  exact Markup.pieces_tag (by decide) _

/-- The line in pieces: between the tags of red stand the text and the defect, and no other tag but
the stray one. -/
theorem exists_pieces_parseError (text : List Char) (e : ParseError) :
    ∃ line before after : List Char, parseError text e = [.line line] ∧
      pieces line = .tag "red".toList :: (("Cannot parse ".toList ++ before).map Piece.char ++
        (strayTag? text e).toList.map Piece.tag ++ after.map Piece.char ++
        .tag "/red".toList :: .char ' ' :: .tag "dim".toList ::
          (('(' :: e.name.toList ++ [')']).map Piece.char ++ [.tag "/dim".toList])) ∧
      (strayTag? text e = none →
        before ++ after = Text.quoted text ++ ':' :: ' ' :: e.message.toList) := by
  have hquoted : (Text.quoted text).getLast? ≠ some '\\' := by
    obtain ⟨body, hbody⟩ := Text.exists_quoted_eq text
    rw [hbody, List.getLast?_concat]
    exact fun h => (Text.quotationMark_ne text).1 (Option.some.inj h)
  have hmessage := e.getLast?_message_ne
  have hdefect : (':' :: ' ' :: e.message.toList).getLast? ≠ some '\\' := by
    rw [List.getLast?_cons, List.getLast?_cons]
    cases hlast : e.message.toList.getLast? with
    | none => decide
    | some c => exact hlast ▸ hmessage
  obtain ⟨before, after, hpieces, hnone⟩ := Markup.exists_pieces_escapeAfter
    (Text.isPaired_quoted text) hquoted hdefect
    ('/' :: "red".toList ++ ']' :: ' ' :: Markup.styled "dim" ('(' :: e.name.toList ++ [')']))
  refine ⟨_, before, after, rfl, ?_, hnone⟩
  have hescape : Markup.escapeAfter 0 (':' :: ' ' :: e.message.toList) =
      ':' :: ' ' :: Markup.escapeAfter 0 e.message.toList := by
    rw [Markup.escapeAfter_of_ne (by decide) (by decide),
      Markup.escapeAfter_of_ne (by decide) (by decide)]
    rfl
  rw [Markup.pieces_styled (by decide), Markup.escape_eq hquoted, Markup.escape_eq hmessage,
    List.append_assoc, List.append_assoc, Markup.pieces_append_of_notMem (by decide) (by decide),
    ← hescape]
  refine congrArg _ ?_
  rw [List.cons_append, hpieces, ← List.cons_append, pieces_name]
  simp only [List.map_append, List.append_assoc, strayTag?]

/-- The tags of the line are those of its two styles, and the stray tag if there is one. Without it
the line shows the text and the defect as they are. -/
theorem tags_parseError (text : List Char) (e : ParseError) :
    ∃ line, parseError text e = [.line line] ∧
      Markup.tags line = "red".toList :: (strayTag? text e).toList ++
        ["/red".toList, "dim".toList, "/dim".toList] ∧
      (Markup.tags line = ["red".toList, "/red".toList, "dim".toList, "/dim".toList] ↔
        strayTag? text e = none) ∧
      (strayTag? text e = none → Markup.plain line = "Cannot parse ".toList ++ Text.quoted text ++
        ':' :: ' ' :: e.message.toList ++ ' ' :: '(' :: e.name.toList ++ [')']) := by
  obtain ⟨line, before, after, hline, hpieces, hnone⟩ := exists_pieces_parseError text e
  have htags : Markup.tags line = "red".toList :: (strayTag? text e).toList ++
      ["/red".toList, "dim".toList, "/dim".toList] := by
    simp [Markup.tags, hpieces, List.filterMap_map]
  refine ⟨line, hline, htags, ?_, fun hstray => ?_⟩
  · rw [htags]
    cases strayTag? text e with
    | none => simp
    | some inside => simp
  · have hshown := congrArg (· ++ ' ' :: '(' :: (e.name.toList ++ [')'])) (hnone hstray)
    simpa [Markup.plain, hpieces, hstray, List.filterMap_map] using hshown

/-- A bracket that the text leaves open is closed by the defect, and what stands between them is
read as a tag. -/
theorem tags_parseError_open_bracket :
    let text := [']', '[', 'a']
    ∃ e line, parse text = .error e ∧ parseError text e = [.line line] ∧
      Markup.tags line = ["red".toList, "a': invalid literal \"".toList, "/red".toList,
        "dim".toList, "/dim".toList] ∧
      Markup.tags line ≠ ["red".toList, "/red".toList, "dim".toList, "/dim".toList] := by
  intro text
  have hsqueeze : Text.squeeze text = text := by decide
  have houtline : Outline.ofText text = .defect (.invalidLiteral text) := by
    rw [Outline.ofText_of_splitPoint_none (by decide) rfl (by decide)]
    rfl
  refine ⟨.invalidLiteral text, _, ?_, rfl, by decide +kernel, by decide +kernel⟩
  rw [parse, hsqueeze, parseSource, if_neg (by decide), if_pos (by decide), houtline]
  rfl

end Display

end Rearrange
