import Rearrange.Proofs.Check
import Rearrange.Proofs.Display.ParseError
import Rearrange.Proofs.Display.Placements
import Rearrange.Proofs.Markup.Tags
import Rearrange.Proofs.Tree.Characters
import Rearrange.Proofs.Tree.Preorder

namespace Rearrange

open Markup (styleTags)

variable {α : Type}

/-- A flat text has nothing to escape. -/
theorem Tree.notMem_flat (t : Tree α) : '\\' ∉ t.flat ∧ '[' ∉ t.flat :=
  ⟨fun h => absurd (isExpressionChar_of_mem_flat h) (by decide),
    fun h => absurd (isExpressionChar_of_mem_flat h) (by decide)⟩

/-- A marker has nothing to escape. -/
theorem Tree.notMem_marker (t : Tree α) : '\\' ∉ t.marker ∧ '[' ∉ t.marker :=
  ⟨fun h => absurd (isExpressionChar_of_mem_marker h) (by decide),
    fun h => absurd (isExpressionChar_of_mem_marker h) (by decide)⟩

namespace Display

private theorem notMem_digits (n : Int) : '[' ∉ digits n := by
  have hdigits : ∀ m : Nat, '[' ∉ m.repr.toList := fun m hmem => by
    rw [Nat.toList_repr] at hmem
    exact absurd (Nat.isDigit_of_mem_toDigits (by decide) (by decide) hmem) (by decide)
  rw [digits]
  cases n with
  | ofNat m => exact hdigits m
  | negSucc m =>
    have hsign : (toString (Int.negSucc m)).toList = '-' :: (m + 1).repr.toList :=
      String.toList_append
    rw [hsign]
    exact List.not_mem_cons_of_ne_of_not_mem (by decide) (hdigits (m + 1))

/-- An indented text has no bracket. -/
private theorem notMem_indentedText (t : Tree α) : '[' ∉ indentedText t := by
  intro h
  obtain ⟨c, hc, hmem⟩ := List.mem_flatMap.mp h
  have hne : c ≠ '\t' := by
    rintro rfl
    simp at hmem
  rw [if_neg hne, List.mem_singleton] at hmem
  have hlines : t.indented 0 = t.located.flatMap fun x => x.2.line 0 x.1 :=
    t.indented_eq_flatMap_line 0
  have hmemLines := List.dropLast_subset _ hc
  rw [hlines] at hmemLines
  obtain ⟨⟨place, u⟩, -, hline⟩ := List.mem_flatMap.mp hmemLines
  rw [← hmem] at hline
  simp [Tree.line, u.notMem_marker.2] at hline

mutual
/-- The labels in a tree of labels, each before those below it. -/
def Labels.texts : Labels → List (List Char)
  | .node label below => label :: labelTexts below

/-- The labels in several trees of labels. -/
def labelTexts : List Labels → List (List Char)
  | [] => []
  | l :: ls => l.texts ++ labelTexts ls
end

/-- The texts in what stands in a panel. -/
def Body.texts : Body → List (List Char)
  | text t => [t]
  | labels l => l.texts

/-- The texts in a block: a line, the title of a panel and what stands in it, or the title, the
headers and the cells of a table, row by row. -/
def Block.texts : Block → List (List Char)
  | line markup => [markup]
  | panel body title _ => title :: body.texts
  | table title columns rows => title :: columns.map (·.header.toList) ++ rows.flatten

/-- The tags of each text that is shown. -/
def tagsShown (blocks : List Block) : List (List (List Char)) :=
  (blocks.flatMap Block.texts).map Markup.tags

theorem tagsShown_append (xs ys : List Block) :
    tagsShown (xs ++ ys) = tagsShown xs ++ tagsShown ys := by
  rw [tagsShown, List.flatMap_append, List.map_append, tagsShown, tagsShown]

theorem tagsShown_line (markup : List Char) : tagsShown [.line markup] = [Markup.tags markup] := rfl

theorem tagsShown_panel (body : Body) (title : List Char) (border : String) :
    tagsShown [.panel body title border] = Markup.tags title :: body.texts.map Markup.tags := by
  simp [tagsShown, Block.texts]

theorem tagsShown_table (title : List Char) (columns : List Column)
    (rows : List (List (List Char))) :
    tagsShown [.table title columns rows] =
      Markup.tags title :: columns.map (fun c => Markup.tags c.header.toList) ++
        rows.flatMap (List.map Markup.tags) := by
  simp [tagsShown, Block.texts, List.map_flatten, List.flatMap_def]

/-- A title that ends with a flat text has no tags. -/
private theorem tags_title {start : List Char} (hescape : '\\' ∉ start) (hopen : '[' ∉ start)
    (t : Tree α) : Markup.tags (start ++ t.flat) = [] := by
  rw [Markup.tags_append_of_notMem hescape hopen, Markup.tags_of_notMem t.notMem_flat.2]

/-- The tags of the label of a node: the style of its kind, and that of the flat text if it stands
there. -/
def labelTags : Kind → List (List Char)
  | .literal => styleTags (kindStyle .literal)
  | .branch s => styleTags (kindStyle (.branch s)) ++ styleTags "dim"

/-- The tags of the texts in an expression. The titles and the indented text have none. -/
def expressionTags (t : Tree α) (indented : Bool) : List (List (List Char)) :=
  [] :: t.located.map (fun x => labelTags x.2.kind) ++ if indented then [[], []] else []

/-- The style of a kind is read as a tag. -/
theorem isTag_kindStyle (k : Kind) : Markup.IsTag (kindStyle k).toList := by
  rcases k with _ | _ | _ | _ <;> decide

/-- The label of a node has the tags of its kind and no others. -/
theorem tags_label (t : Tree α) : Markup.tags (label t) = labelTags t.kind := by
  obtain ⟨hescape, hopen⟩ := t.notMem_marker
  cases t with
  | literal a l => rw [label, Markup.tags_styled (isTag_kindStyle _) hescape hopen]; rfl
  | branch a s cs =>
    have hflat := (Tree.branch a s cs).notMem_flat
    rw [label, Markup.tags_styled_append (isTag_kindStyle _) hescape hopen,
      Markup.tags_blank_cons, Markup.tags_styled (by decide) hflat.1 hflat.2]
    rfl

/-- The labels of children stand in the order of the walk. -/
theorem labelTexts_labelsAll {cs : List (Tree α)} (i : Nat)
    (hcs : ∀ c ∈ cs, (labels c).texts = c.located.map fun x => label x.2) :
    labelTexts (labelsAll cs) = (Tree.locatedAll i cs).map fun x => label x.2 := by
  induction cs generalizing i with
  | nil => rfl
  | cons c cs ih =>
    obtain ⟨hc, hcs⟩ := List.forall_mem_cons.mp hcs
    rw [labelsAll, labelTexts, hc, ih (i + 1) hcs, Tree.locatedAll, List.map_append, List.map_map]
    rfl

/-- A tree of labels has one for each subtree. -/
theorem texts_labels (t : Tree α) : (labels t).texts = t.located.map fun x => label x.2 := by
  induction t with
  | literal a l => rfl
  | branch a s cs ih =>
    rw [labels, Labels.texts, labelTexts_labelsAll 0 ih, Tree.located, List.map_cons]

/-- An expression is shown with the tags of its kinds and no others. -/
theorem tagsShown_expression (t : Tree α) (indented : Bool) :
    tagsShown (expression t indented) = expressionTags t indented := by
  have htitle : Markup.tags "Indented form".toList = [] := by decide
  have hlabels : (fun x : List Nat × Tree α => Markup.tags (label x.2)) =
      fun x => labelTags x.2.kind := funext fun x => tags_label x.2
  rw [expression, ← List.singleton_append, tagsShown_append, tagsShown_panel,
    tags_title (by decide) (by decide), Body.texts, texts_labels, List.map_map,
    Function.comp_def, hlabels, expressionTags]
  cases indented with
  | false => rfl
  | true =>
    rw [if_pos rfl, if_pos rfl, tagsShown_panel, htitle, Body.texts, List.map_singleton,
      Markup.tags_of_notMem (notMem_indentedText t)]

/-- The tags of the texts in a table of placements and the line below it: those of the mark of the
current one. -/
def candidateTags (ps : List Placement) (limit : Int) (current : Option Int) :
    List (List (List Char)) :=
  [] :: candidateColumns.map (fun _ => []) ++
    (slice ps 0 limit).flatMap (fun p =>
      [[], [], if current = some (p.position : Int) then styleTags "yellow" else []]) ++
    if limit < ps.length then [[]] else []

/-- In the row of a candidate only the mark has tags. -/
theorem tags_candidateRow (current : Option Int) (p : Placement) (index : Nat) :
    (candidateRow current p index).map Markup.tags =
      [[], [], if current = some (p.position : Int) then styleTags "yellow" else []] := by
  obtain ⟨hescape, hopen⟩ : '\\' ∉ p.flat ∧ '[' ∉ p.flat := p.tree.notMem_flat
  rw [candidateRow, List.map_cons, List.map_cons, List.map_singleton,
    Markup.tags_of_notMem (notMem_digits _), Markup.tags_of_notMem (notMem_digits _)]
  split
  · rw [Markup.tags_append_of_notMem hescape hopen, Markup.tags_blank_cons,
      Markup.tags_styled (by decide) (by decide) (by decide)]
  · rw [List.append_nil, Markup.tags_of_notMem hopen]

/-- The remainder line has no tags. -/
private theorem tags_left (n : Int) :
    Markup.tags ("  ... and ".toList ++ digits n ++ " more candidates".toList) = [] := by
  apply Markup.tags_of_notMem
  rw [List.mem_append, List.mem_append]
  exact not_or_intro (not_or_intro (by decide) (notMem_digits n)) (by decide)

/-- Candidates are shown with the tags of their mark and no others. -/
theorem tagsShown_candidates (t : Tree α) (ps : List Placement) (limit : Int)
    (current : Option Int) :
    tagsShown (candidates t.flat ps limit current) = candidateTags ps limit current := by
  have hheaders : candidateColumns.map (fun c => Markup.tags c.header.toList) =
      candidateColumns.map fun _ => [] := by decide
  have hrows : ((slice ps 0 limit).zipIdx.map fun x => candidateRow current x.1 x.2).flatMap
        (List.map Markup.tags) = (slice ps 0 limit).flatMap fun p =>
      [[], [], if current = some (p.position : Int) then styleTags "yellow" else []] := by
    simp only [List.flatMap_map, tags_candidateRow]
    conv_rhs => rw [← List.zipIdx_map_fst 0 (slice ps 0 limit), List.flatMap_map]
  rw [candidates_eq, ← List.singleton_append, tagsShown_append, tagsShown_table,
    tags_title (by decide) (by decide), hheaders, hrows, candidateTags]
  split
  · rw [tagsShown_line, tags_left]
  · rfl

/-- The tags of the texts in the results for rows: those of the status, by whether the line
passes. -/
def resultTags (rs : List Check.Row) : List (List (List Char)) :=
  [] :: resultColumns.map (fun _ => []) ++
    rs.flatMap fun r => [[], [], [], styleTags (if r.passes then "green" else "red")]

private theorem notMem_status (r : Check.Row) : '\\' ∉ r.result.status ∧ '[' ∉ r.result.status := by
  rw [Check.Row.result]
  cases r.verdict with
  | ok flat => exact (by decide : '\\' ∉ "OK".toList ∧ '[' ∉ "OK".toList)
  | mismatch flat => exact (by decide : '\\' ∉ "MISMATCH".toList ∧ '[' ∉ "MISMATCH".toList)
  | rejected e => exact e.notMem_name

/-- The flat text of a row has no bracket. -/
private theorem notMem_flat_result {r : Check.Row} (h : r.verdict = Check.verdict r.input) :
    '[' ∉ r.result.flat := by
  rw [Check.Row.result, h, Check.verdict_eq]
  cases parse r.input with
  | ok t => exact t.notMem_flat.2
  | error e => exact List.not_mem_nil

/-- In the row of a result only the status has tags. -/
theorem tags_resultRow {r : Check.Row} (h : r.verdict = Check.verdict r.input) :
    (resultRow r.result).map Markup.tags =
      [[], [], [], styleTags (if r.passes then "green" else "red")] := by
  obtain ⟨hescape, hopen⟩ := notMem_status r
  have hstyle : Markup.IsTag (if r.passes then "green" else "red").toList := by
    split <;> decide
  have hpasses : (if r.result.status = "OK".toList then "green" else "red") =
      if r.passes then "green" else "red" := by
    rw [r.passes_eq]
    simp
  rw [resultRow, hpasses, Markup.escape_of_notMem hescape hopen, List.map_cons, List.map_cons,
    List.map_cons, List.map_singleton, Markup.tags_escape,
    Markup.tags_of_notMem (notMem_flat_result h), Markup.tags_styled hstyle hescape hopen]
  rw [show Markup.tags r.result.line = [] from Markup.tags_of_notMem (notMem_digits _)]

/-- Results are shown with the tags of their statuses and no others. -/
theorem tagsShown_results (lines : List (List Char)) :
    tagsShown (results ((Check.rows lines).map Check.Row.result)) =
      resultTags (Check.rows lines) := by
  have htitle : Markup.tags "Round-trip check".toList = [] := by decide
  have hheaders : resultColumns.map (fun c => Markup.tags c.header.toList) =
      resultColumns.map fun _ => [] := by decide
  have hverdict : ∀ r ∈ Check.rows lines, r.verdict = Check.verdict r.input := fun r hr => by
    obtain ⟨x, -, rfl⟩ := List.mem_map.mp hr
    rfl
  rw [results, tagsShown_table, htitle, hheaders, resultTags, List.map_map, List.flatMap_map]
  exact congrArg _ (List.flatMap_congr fun r hr => tags_resultRow (hverdict r hr))

/-- No text that is shown has a tag but those of the styles that are put there. A flat text consists
of digits, small letters and the four signs, whatever the tree, and no tag is left in an escaped
line. The tags that are read in a text are those that it has. -/
theorem tagsShown_only_styles :
    (∀ text inside, inside ∈ Markup.tags text ↔ Markup.HasTag text inside) ∧
    (∀ t : Tree α, ∀ c ∈ t.flat, isExpressionChar c = true) ∧
    (∀ line, Markup.tags (Markup.escape line) = []) ∧
    (∀ (t : Tree α) indented, tagsShown (expression t indented) = expressionTags t indented) ∧
    (∀ (t : Tree α) ps limit current,
      tagsShown (candidates t.flat ps limit current) = candidateTags ps limit current) ∧
    ∀ lines, tagsShown (results ((Check.rows lines).map Check.Row.result)) =
      resultTags (Check.rows lines) :=
  ⟨fun _ _ => Markup.mem_tags_iff, fun _ _ => Tree.isExpressionChar_of_mem_flat,
    Markup.tags_escape, tagsShown_expression, tagsShown_candidates, tagsShown_results⟩

end Display

end Rearrange
