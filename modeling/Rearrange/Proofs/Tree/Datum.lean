import Rearrange.Proofs.Parse.Grammar
import Rearrange.Proofs.Tree.Indented
import Rearrange.Tree.Datum

namespace Rearrange

private theorem bind_eq_ok_iff {ε α β : Type} {x : Except ε α} {f : α → Except ε β} {b : β} :
    x >>= f = .ok b ↔ ∃ a, x = .ok a ∧ f a = .ok b := by
  cases x with
  | error e => exact iff_of_false nofun nofun
  | ok a => exact ⟨fun h => ⟨a, rfl, h⟩, fun ⟨_, ha, h⟩ => Except.ok.inj ha ▸ h⟩

private theorem mapError_eq_ok_iff {ε ε' α : Type} {x : Except ε α} {f : ε → ε'} {a : α} :
    x.mapError f = .ok a ↔ x = .ok a := by
  cases x with
  | error e => exact iff_of_false nofun nofun
  | ok b => exact ⟨fun h => congrArg Except.ok (Except.ok.inj h), fun h => congrArg _ h⟩

namespace Datum

/-- The data that can be gone through one by one. Empty text and an empty object count as a list
without items, other text and other objects as none. -/
def items? : Datum → Option (List Datum)
  | array items => some items
  | text s => if s = "" then some [] else none
  | object [] => some []
  | _ => none

/-- The data that an object lists as its children, none if it does not have the field. -/
def listed? (fields : List (String × Datum)) : Option (List Datum) :=
  match fields.lookup "children" with
  | none => some []
  | some value => value.items?

/-- The data describe a tree: an object that names a kind and lists data that describe trees. A
literal has a number or a variable as its text and lists nothing; other nodes have no text. -/
inductive IsTree : Datum → Prop where
  | literal {fields : List (String × Datum)} {s : String}
      (hkind : fields.lookup "kind" = some (.text "LITERAL"))
      (htext : fields.lookup "literal" = some (.text s)) (hs : Derives .literal s.toList)
      (hchildren : listed? fields = some []) : IsTree (.object fields)
  | branch {fields : List (String × Datum)} {name : String} {items : List Datum}
      (hkind : fields.lookup "kind" = some (.text name))
      (hname : name ∈ ["ADDITIVE", "MULTIPLICATIVE", "PARENTHETICAL"])
      (htext : fields.lookup "literal" = none ∨ fields.lookup "literal" = some .null)
      (hchildren : listed? fields = some items) (hitems : ∀ d ∈ items, IsTree d) :
      IsTree (.object fields)

/-- The fields of an object that say what a node is: its kind and, for a literal only, its text. -/
def headFields (fields : List (String × Datum)) : List (String × Datum) :=
  match fields.lookup "kind" with
  | some (.text "LITERAL") =>
    [("kind", .text "LITERAL"), ("literal", (fields.lookup "literal").getD .null)]
  | kind => [("kind", kind.getD .null)]

mutual
/-- What is left when objects are reduced to kind, text of a literal, and children, at every
level. -/
def reduced : Datum → Datum
  | object fields => object (headFields fields ++ [("children", array (reducedField fields))])
  | d => d

/-- The children of an object, reduced. -/
def reducedField : List (String × Datum) → List Datum
  | [] => []
  | (name, value) :: rest =>
    if name = "children" then reducedItems value else reducedField rest

/-- The items of a list, reduced. -/
def reducedItems : Datum → List Datum
  | array items => reducedAll items
  | _ => []

/-- Several data, reduced. -/
def reducedAll : List Datum → List Datum
  | [] => []
  | d :: ds => d.reduced :: reducedAll ds
end

private theorem reducedAll_eq_map (ds : List Datum) : reducedAll ds = ds.map reduced := by
  induction ds with
  | nil => rfl
  | cons d ds ih => simp [reducedAll, ih]

theorem reducedItems_eq {value : Datum} {items : List Datum} (h : value.items? = some items) :
    reducedItems value = items.map reduced := by
  cases value with
  | array ds =>
    obtain rfl := Option.some.inj h
    rw [reducedItems, reducedAll_eq_map]
  | text s =>
    obtain ⟨-, rfl⟩ : s = "" ∧ [] = items := by simpa [items?] using h
    rfl
  | object fields =>
    cases fields with
    | nil =>
      obtain rfl := Option.some.inj h
      rfl
    | cons field fields => cases h
  | _ => cases h

/-- The first field named for the children is the one that is read. -/
private theorem listed?_cons_self (value : Datum) (rest : List (String × Datum)) :
    listed? (("children", value) :: rest) = value.items? := by
  rw [listed?, List.lookup_cons_self]

private theorem listed?_cons_of_ne {name : String} (h : name ≠ "children") (value : Datum)
    (rest : List (String × Datum)) : listed? ((name, value) :: rest) = listed? rest := by
  rw [listed?, List.lookup_cons, beq_false_of_ne h.symm, listed?]

theorem reducedField_eq {fields : List (String × Datum)} {items : List Datum}
    (h : listed? fields = some items) : reducedField fields = items.map reduced := by
  induction fields with
  | nil =>
    obtain rfl := Option.some.inj h
    rfl
  | cons field rest ih =>
    obtain ⟨name, value⟩ := field
    rw [reducedField]
    by_cases hname : name = "children"
    · subst hname
      rw [listed?_cons_self] at h
      rw [if_pos rfl, reducedItems_eq h]
    · rw [listed?_cons_of_ne hname] at h
      rw [if_neg hname, ih h]

theorem headFields_literal {fields : List (String × Datum)} {text : Datum}
    (hkind : fields.lookup "kind" = some (.text "LITERAL"))
    (htext : fields.lookup "literal" = some text) :
    headFields fields = [("kind", .text "LITERAL"), ("literal", text)] := by
  simp [headFields, hkind, htext]

theorem headFields_branch {fields : List (String × Datum)} {shape : Shape}
    (hkind : fields.lookup "kind" = some (.text (Kind.branch shape).name)) :
    headFields fields = [("kind", .text (Kind.branch shape).name)] := by
  rw [headFields, hkind]
  rcases shape with _ | _ | _ <;> simp [Kind.name]

end Datum

theorem Kind.name_branch_mem (shape : Shape) :
    (Kind.branch shape).name ∈ ["ADDITIVE", "MULTIPLICATIVE", "PARENTHETICAL"] := by
  rcases shape with _ | _ | _ <;> decide

/-- Each of the three names is that of a branch. -/
theorem Kind.exists_name_branch_eq {name : String}
    (h : name ∈ ["ADDITIVE", "MULTIPLICATIVE", "PARENTHETICAL"]) :
    ∃ shape, (Kind.branch shape).name = name := by
  rw [List.mem_cons, List.mem_cons, List.mem_singleton] at h
  obtain rfl | rfl | rfl := h
  · exact ⟨.chain .plus, rfl⟩
  · exact ⟨.chain .times, rfl⟩
  · exact ⟨.group, rfl⟩

/-- A field that is null or not there counts as null. -/
private theorem Datum.getD_null_eq_iff {given : Option Datum} {d : Datum} :
    given.getD .null = d ↔ given = none ∧ d = .null ∨ given = some d := by
  cases given with
  | none => simp [eq_comm]
  | some e => simp

/-- A literal is read from its text and from nothing else. -/
theorem Literal.ofDatum_eq_ok_iff {given : Datum} {l : Literal} :
    Literal.ofDatum given = .ok l ↔ given = .text (String.ofList l.text) := by
  constructor
  · intro h
    cases given with
    | text s =>
      rw [Literal.ofDatum] at h
      split at h
      · next m hm =>
        obtain rfl := Except.ok.inj h
        rw [Literal.text_of_ofText?_eq_some hm, String.ofList_toList]
      · cases h
    | _ => cases h
  · rintro rfl
    rw [Literal.ofDatum, String.toList_ofList, Literal.ofText?_text]

/-- A branch is made when no literal is given, whatever its children are. -/
theorem Kind.head_branch_eq_ok_iff {shape : Shape} {given : Datum} {childless : Bool}
    {head : Head} :
    (Kind.branch shape).head given childless = .ok head ↔ given = .null ∧ head = .branch shape := by
  cases given with
  | null => simp [Kind.head, pure, Except.pure, eq_comm]
  | _ => exact iff_of_false nofun nofun

/-- A literal is made from its text when it has no children. -/
theorem Kind.head_literal_eq_ok_iff {given : Datum} {childless : Bool} {head : Head} :
    Kind.literal.head given childless = .ok head ↔
      ∃ l : Literal, given = .text (String.ofList l.text) ∧ childless = true ∧
        head = .literal l := by
  rw [Kind.head, bind_eq_ok_iff]
  simp only [Literal.ofDatum_eq_ok_iff]
  cases childless with
  | false => exact iff_of_false nofun nofun
  | true => simp [pure, Except.pure, eq_comm]

/-- A kind is read from its name. -/
theorem Kind.ofFields_eq_ok_iff {fields : List (String × Datum)} {kind : Kind} :
    Kind.ofFields fields = .ok kind ↔ fields.lookup "kind" = some (.text kind.name) := by
  rw [Kind.ofFields.eq_def]
  split
  · next name hlookup =>
    rw [hlookup]
    cases hkind : Kind.ofName? name with
    | none =>
      refine iff_of_false nofun fun h => ?_
      obtain rfl : name = kind.name := by simpa using h
      rw [Kind.ofName?_name] at hkind
      cases hkind
    | some k =>
      have hname : k.name = name := by simpa using List.find?_some hkind
      subst hname
      simp [Kind.name_injective.eq_iff]
  · next hother =>
    exact iff_of_false nofun fun h => hother _ h

namespace Tree

/-- The expression of a kind with the given text and parts. -/
def assemble (kind : Kind) (given : Datum) (children : List Expr) : Except FragmentError Expr := do
  match ← kind.head given children.isEmpty with
  | .literal l => return .literal () l
  | .branch shape => return .branch () shape children

mutual
/-- The expression that data describe. -/
def ofDatum : Datum → Except DatumError Expr
  | .object fields => do
    let kind ← (Kind.ofFields fields).mapError .fragment
    let children ← ofChildrenField fields
    (assemble kind ((fields.lookup "literal").getD .null) children).mapError .fragment
  | _ => throw .wrongType

/-- The expressions that an object lists as its children, none if there is no such field or if it is
empty. -/
def ofChildrenField : List (String × Datum) → Except DatumError (List Expr)
  | [] => return []
  | (name, value) :: rest =>
    if name = "children" then ofChildren value else ofChildrenField rest

/-- The expressions of a list. Empty text and an empty object stand for no list items. -/
def ofChildren : Datum → Except DatumError (List Expr)
  | .array items => ofItems items
  | .object fields => if fields.isEmpty then return [] else throw .wrongType
  | .text s => if s.isEmpty then return [] else throw .wrongType
  | _ => throw .wrongType

/-- The expressions that several data describe. -/
def ofItems : List Datum → Except DatumError (List Expr)
  | [] => return []
  | item :: items => do
    let first ← ofDatum item
    let others ← ofItems items
    return first :: others
end

variable {α : Type}

/-- Children are read one by one, and all of them have to be readable. -/
theorem ofItems_eq_ok_iff {items : List Datum} {ts : List Expr} :
    ofItems items = .ok ts ↔ List.Forall₂ (fun d t => ofDatum d = .ok t) items ts := by
  induction items generalizing ts with
  | nil =>
    rw [List.forall₂_nil_left_iff, ofItems]
    exact ⟨fun h => (Except.ok.inj h).symm, fun h => congrArg Except.ok h.symm⟩
  | cons d items ih =>
    rw [ofItems, bind_eq_ok_iff, List.forall₂_cons_left_iff]
    simp only [bind_eq_ok_iff, ih]
    constructor
    · rintro ⟨t, ht, us, hus, h⟩
      exact ⟨t, us, ht, hus, (Except.ok.inj h).symm⟩
    · rintro ⟨t, us, ht, hus, rfl⟩
      exact ⟨t, ht, us, hus, rfl⟩

theorem ofChildren_eq (value : Datum) :
    ofChildren value = match value.items? with
      | some items => ofItems items
      | none => .error .wrongType := by
  cases value with
  | array items => rfl
  | text s =>
    rw [ofChildren, Datum.items?]
    by_cases hs : s = ""
    · subst hs
      rfl
    · simp [hs]
      rfl
  | object fields => cases fields <;> rfl
  | _ => rfl

theorem ofChildrenField_eq (fields : List (String × Datum)) :
    ofChildrenField fields = match Datum.listed? fields with
      | some items => ofItems items
      | none => .error .wrongType := by
  induction fields with
  | nil => rfl
  | cons field rest ih =>
    obtain ⟨name, value⟩ := field
    rw [ofChildrenField]
    by_cases hname : name = "children"
    · subst hname
      rw [if_pos rfl, Datum.listed?_cons_self, ofChildren_eq]
    · rw [if_neg hname, Datum.listed?_cons_of_ne hname, ih]

/-- A literal is assembled from its text and no children. -/
theorem assemble_literal_eq_ok_iff {given : Datum} {cs : List Expr} {t : Expr} :
    assemble .literal given cs = .ok t ↔
      ∃ l : Literal, given = .text (String.ofList l.text) ∧ cs = [] ∧ t = .literal () l := by
  rw [assemble, bind_eq_ok_iff]
  simp only [Kind.head_literal_eq_ok_iff, List.isEmpty_iff]
  constructor
  · rintro ⟨_, ⟨l, hgiven, hcs, rfl⟩, ht⟩
    exact ⟨l, hgiven, hcs, (Except.ok.inj ht).symm⟩
  · rintro ⟨l, hgiven, hcs, rfl⟩
    exact ⟨.literal l, ⟨l, hgiven, hcs, rfl⟩, rfl⟩

/-- A branch is assembled from its children and no text. -/
theorem assemble_branch_eq_ok_iff {shape : Shape} {given : Datum} {cs : List Expr} {t : Expr} :
    assemble (.branch shape) given cs = .ok t ↔ given = .null ∧ t = .branch () shape cs := by
  rw [assemble, bind_eq_ok_iff]
  simp only [Kind.head_branch_eq_ok_iff]
  constructor
  · rintro ⟨_, ⟨hgiven, rfl⟩, ht⟩
    exact ⟨hgiven, (Except.ok.inj ht).symm⟩
  · rintro ⟨hgiven, rfl⟩
    exact ⟨.branch shape, ⟨hgiven, rfl⟩, rfl⟩

/-- What an object has to hold for a tree to be read from it. -/
theorem ofDatum_object_eq_ok_iff {fields : List (String × Datum)} {t : Expr} :
    ofDatum (.object fields) = .ok t ↔ ∃ kind items cs,
      fields.lookup "kind" = some (.text kind.name) ∧ Datum.listed? fields = some items ∧
      List.Forall₂ (fun d t => ofDatum d = .ok t) items cs ∧
      assemble kind ((fields.lookup "literal").getD .null) cs = .ok t := by
  have hchildren : ∀ cs, ofChildrenField fields = .ok cs ↔ ∃ items,
      Datum.listed? fields = some items ∧ List.Forall₂ (fun d t => ofDatum d = .ok t) items cs := by
    intro cs
    rw [ofChildrenField_eq]
    cases Datum.listed? fields with
    | none => exact iff_of_false nofun nofun
    | some items => simp [ofItems_eq_ok_iff]
  simp only [ofDatum, bind_eq_ok_iff, mapError_eq_ok_iff, Kind.ofFields_eq_ok_iff, hchildren]
  constructor
  · rintro ⟨kind, hkind, cs, ⟨items, hlisted, hitems⟩, ht⟩
    exact ⟨kind, items, cs, hkind, hlisted, hitems, ht⟩
  · rintro ⟨kind, items, cs, hkind, hlisted, hitems, ht⟩
    exact ⟨kind, hkind, cs, ⟨items, hlisted, hitems⟩, ht⟩

/-- Data that describe a tree can be read. -/
theorem exists_ofDatum {d : Datum} (h : d.IsTree) : ∃ t, ofDatum d = .ok t := by
  induction h with
  | @literal fields s hkind htext hs hchildren =>
    let l : Literal := ⟨s.toList, isLiteralText_iff_derives.mpr hs⟩
    refine ⟨.literal () l, ofDatum_object_eq_ok_iff.mpr
      ⟨.literal, [], [], hkind, hchildren, .nil, ?_⟩⟩
    refine assemble_literal_eq_ok_iff.mpr ⟨l, ?_, rfl, rfl⟩
    rw [htext, Option.getD_some, String.ofList_toList]
  | @branch fields name items hkind hname htext hchildren hitems ih =>
    obtain ⟨shape, rfl⟩ := Kind.exists_name_branch_eq hname
    have hexpr : Nonempty Expr := ⟨.branch () shape []⟩
    choose! f hf using ih
    refine ⟨.branch () shape (items.map f), ofDatum_object_eq_ok_iff.mpr
      ⟨.branch shape, items, items.map f, hkind, hchildren, ?_, ?_⟩⟩
    · exact List.forall₂_map_right_iff.mpr (List.forall₂_same.mpr hf)
    · refine assemble_branch_eq_ok_iff.mpr ⟨Datum.getD_null_eq_iff.mpr ?_, rfl⟩
      exact htext.imp_left fun hnone => ⟨hnone, rfl⟩

/-- Only data that describe a tree can be read, and the tree says what is left of them. -/
theorem isTree_and_toDatum_eq {d : Datum} {t : Expr} (h : ofDatum d = .ok t) :
    d.IsTree ∧ t.toDatum = d.reduced := by
  induction t using Tree.induction generalizing d with
  | literal a l =>
    cases d with
    | object fields =>
      obtain ⟨kind, items, cs, hkind, hlisted, hitems, ht⟩ := ofDatum_object_eq_ok_iff.mp h
      cases kind with
      | branch shape => cases (assemble_branch_eq_ok_iff.mp ht).2
      | literal =>
        obtain ⟨m, hgiven, rfl, hm⟩ := assemble_literal_eq_ok_iff.mp ht
        obtain rfl := List.forall₂_nil_right_iff.mp hitems
        obtain ⟨-, rfl⟩ := Tree.literal.inj hm
        have htext := (Datum.getD_null_eq_iff.mp hgiven).resolve_left fun h => Datum.noConfusion h.2
        refine ⟨.literal hkind htext ?_ hlisted, ?_⟩
        · rw [String.toList_ofList]
          exact isLiteralText_iff_derives.mp l.isLiteralText_text
        · rw [toDatum, Datum.reduced, Datum.headFields_literal hkind htext,
            Datum.reducedField_eq hlisted]
          rfl
    | _ => cases h
  | branch a shape cs ih =>
    cases d with
    | object fields =>
      obtain ⟨kind, items, ds, hkind, hlisted, hitems, ht⟩ := ofDatum_object_eq_ok_iff.mp h
      cases kind with
      | literal =>
        obtain ⟨m, -, -, hm⟩ := assemble_literal_eq_ok_iff.mp ht
        cases hm
      | branch r =>
        obtain ⟨hgiven, hbranch⟩ := assemble_branch_eq_ok_iff.mp ht
        obtain ⟨-, rfl, rfl⟩ := Tree.branch.inj hbranch
        -- The induction is on the tree: what it says of the children is brought over to the items.
        have hread : List.Forall₂ (fun c d => d.IsTree ∧ c.toDatum = d.reduced) cs items :=
          ((List.forall₂_and_left cs items).mpr ⟨ih, hitems.flip⟩).imp fun _ _ h => h.1 h.2
        obtain ⟨htrees, hsame⟩ := (List.forall₂_and_left items cs).mp hread.flip
        have hchildren : cs.map toDatum = items.map Datum.reduced := by
          rw [← List.forall₂_eq_eq_eq, List.forall₂_map_left_iff, List.forall₂_map_right_iff]
          exact hsame.flip
        refine ⟨.branch hkind (Kind.name_branch_mem shape) ?_ hlisted htrees, ?_⟩
        · exact (Datum.getD_null_eq_iff.mp hgiven).imp_left And.left
        · rw [toDatum, Datum.reduced, Datum.headFields_branch hkind, Datum.reducedField_eq hlisted,
            toDatumAll_eq_map, hchildren]
          rfl
    | _ => cases h

/-- A tree is read back from its data. -/
theorem ofDatum_toDatum (t : Tree α) : ofDatum t.toDatum = .ok t.erase := by
  induction t with
  | literal a l =>
    rw [toDatum]
    refine ofDatum_object_eq_ok_iff.mpr ⟨.literal, [], [], ?_, ?_, .nil, ?_⟩
    · rfl
    · rfl
    · exact assemble_literal_eq_ok_iff.mpr ⟨l, rfl, rfl, erase_literal a l⟩
  | branch a shape cs ih =>
    rw [toDatum, toDatumAll_eq_map]
    refine ofDatum_object_eq_ok_iff.mpr
      ⟨.branch shape, cs.map toDatum, cs.map erase, ?_, ?_, ?_, ?_⟩
    · rfl
    · rfl
    · rw [List.forall₂_map_left_iff, List.forall₂_map_right_iff]
      exact List.forall₂_same.mpr ih
    · exact assemble_branch_eq_ok_iff.mpr ⟨rfl, erase_branch a shape cs⟩

end Tree

end Rearrange
