-- The dump of a program tells the program, but for the names of files. Each node is an
-- object with its kind, its line and column and its parts under their names, so what stands
-- under a name is the same in two dumps that are the same, from the root down to the leaves.
import LetPoly.Proofs.JsonTexts
import LetPoly.Table
import LetPoly.Term.Dump

namespace LetPoly

/-! ## Trees moved to one file -/

/-- The same line and column of a file. -/
def Location.inFile (file : String) (l : Location) : Location := { l with file := file }

namespace TypeExpr

mutual

/-- An annotation with all its locations moved to a file. -/
def inFile (file : String) : TypeExpr → TypeExpr
  | named x l => named x (l.map (Location.inFile file))
  | quoted x l => quoted x (l.map (Location.inFile file))
  | arrow params result l =>
    arrow (inFileAll file params) (inFile file result) (l.map (Location.inFile file))

/-- Annotations with all their locations moved to a file. -/
def inFileAll (file : String) : List TypeExpr → List TypeExpr
  | [] => []
  | t :: more => inFile file t :: inFileAll file more

end

end TypeExpr

/-- A parameter with all its locations moved to a file. -/
def Param.inFile (file : String) (p : Param) : Param :=
  ⟨p.name, p.ascription.map (TypeExpr.inFile file), p.location.map (Location.inFile file)⟩

namespace Term

mutual

/-- An expression or statement with all its locations moved to a file. -/
def inFile (file : String) : Term → Term
  | number value l => number value (l.map (Location.inFile file))
  | boolean value l => boolean value (l.map (Location.inFile file))
  | name x l => name x (l.map (Location.inFile file))
  | binary left operator right l =>
    binary (inFile file left) operator (inFile file right) (l.map (Location.inFile file))
  | call callee arguments l =>
    call (inFile file callee) (inFileAll file arguments) (l.map (Location.inFile file))
  | lambda params body l =>
    lambda (params.map (Param.inFile file)) (inFile file body) (l.map (Location.inFile file))
  | block statements result l =>
    block (inFileAll file statements) (inFileOption file result) (l.map (Location.inFile file))
  | conditional condition thenBranch elseBranch l =>
    conditional (inFile file condition) (inFile file thenBranch) (inFile file elseBranch)
      (l.map (Location.inFile file))
  | letBinding x value ascription l =>
    letBinding x (inFile file value) (ascription.map (TypeExpr.inFile file))
      (l.map (Location.inFile file))
  | definition f params returns body l =>
    definition f (params.map (Param.inFile file)) (returns.map (TypeExpr.inFile file))
      (inFile file body) (l.map (Location.inFile file))
  | discard expression l => discard (inFile file expression) (l.map (Location.inFile file))
  | strayParam p => strayParam (p.inFile file)
  | strayType t => strayType (t.inFile file)
  | strayProgram statements result l =>
    strayProgram (inFileAll file statements) (inFileOption file result)
      (l.map (Location.inFile file))

/-- Expressions or statements with all their locations moved to a file. -/
def inFileAll (file : String) : List Term → List Term
  | [] => []
  | e :: more => inFile file e :: inFileAll file more

/-- An expression that may be missing, with all its locations moved to a file. -/
def inFileOption (file : String) : Option Term → Option Term
  | none => none
  | some e => some (inFile file e)

end

end Term

/-- A program moved to a file with all its locations. -/
def Program.inFile (file : String) (p : Program) : Program :=
  ⟨Term.inFileAll file p.statements, Term.inFileOption file p.result, file,
    p.location.map (Location.inFile file)⟩

/-! ## The fields of a node -/

/-- What stands under a name in an object. -/
def Json.field? (name : String) : Json → Option Json
  | .object fields => Table.find? name fields
  | _ => none

@[simp] theorem Json.field?_object (name : String) (fields : List (String × Json)) :
    (object fields).field? name = Table.find? name fields := rfl

/-- A place as it is dumped. -/
def Location.toJson (l : Location) : Json :=
  .object [("column", .int l.column), ("line", .int l.line)]

theorem Location.inFile_eq {l l' : Option Location}
    (h : l.map Location.toJson = l'.map Location.toJson) (file : String) :
    l.map (Location.inFile file) = l'.map (Location.inFile file) := by
  cases l <;> cases l' <;> simp_all [Location.toJson, Location.inFile]

theorem Tag.locationField_eq (t : Tag) :
    t.locationField = (t.location.map fun l => ("location", l.toJson)).toList := by
  unfold locationField
  cases t.location <;> rfl

@[simp] theorem Tag.find?_location (t : Tag) (rest : List (String × Json)) :
    Table.find? "location" (t.locationField ++ rest) =
      (t.location.map Location.toJson).or (Table.find? "location" rest) := by
  rw [locationField_eq]
  cases t.location <;> simp [Table.find?]

@[simp] theorem Tag.find?_location_last (t : Tag) :
    Table.find? "location" t.locationField = t.location.map Location.toJson := by
  simpa [Table.find?] using t.find?_location []

/-- A field is neither the kind nor the place of a node. -/
def Json.isPart (field : String × Json) : Bool := field.1 != "kind" && field.1 != "location"

/-- The fields of an object that are neither the kind nor the place of a node. -/
def Json.parts : Json → List (String × Json)
  | .object fields => fields.filter isPart
  | _ => []

@[simp] theorem Json.parts_object (fields : List (String × Json)) :
    (object fields).parts = fields.filter isPart := rfl

@[simp] theorem Tag.filter_kindField (t : Tag) (rest : List (String × Json)) :
    (t.kindField :: rest).filter Json.isPart = rest.filter Json.isPart := rfl

@[simp] theorem Tag.filter_locationField (t : Tag) : t.locationField.filter Json.isPart = [] := by
  rw [locationField_eq]
  cases t.location <;> simp [Json.isPart]

@[simp] theorem Tag.locationField_inFile (k : Kind) (l : Option Location) (file : String) :
    locationField ⟨k, l.map (Location.inFile file)⟩ = locationField ⟨k, l⟩ := by
  cases l <;> rfl

/-- The kind that is printed under a name. -/
def Kind.ofLabel? (label : String) : Option Kind :=
  [.namedType, .quotedType, .arrowType, .number, .boolean, .name, .binary, .call, .parameter,
    .lambda, .block, .conditional, .letBinding, .definition, .discard, .program].find?
    (·.label == label)

theorem Kind.ofLabel?_label (k : Kind) : ofLabel? k.label = some k := by
  cases k <;> decide

theorem Kind.label_injective {k k' : Kind} (h : k.label = k'.label) : k = k' := by
  have hkind := congrArg ofLabel? h
  rwa [ofLabel?_label, ofLabel?_label, Option.some.injEq] at hkind

/-- An object is the dump of a node of the given kind and place. -/
structure Json.Tagged (j : Json) (t : Tag) : Prop where
  kind : j.field? "kind" = some (.text t.kind.label)
  location : j.field? "location" = t.location.map Location.toJson

/-- Nodes that are dumped the same have the same kind, line, column and parts. -/
theorem Json.Tagged.alike {j j' : Json} {t u : Tag} (ht : j.Tagged t) (hu : j'.Tagged u)
    (h : j = j') (file : String) :
    t.kind = u.kind ∧
      t.location.map (Location.inFile file) = u.location.map (Location.inFile file) ∧
      j.parts = j'.parts := by
  subst h
  have hkind := ht.kind.symm.trans hu.kind
  refine ⟨Kind.label_injective (by simpa using hkind), ?_, rfl⟩
  exact Location.inFile_eq (ht.location.symm.trans hu.location) file

theorem Json.Tagged.ne_null {j : Json} {t : Tag} (h : j.Tagged t) : j ≠ .null := by
  rintro rfl
  cases h.kind

theorem TypeExpr.tagged_toJson (t : TypeExpr) : t.toJson.Tagged t.tag := by
  cases t <;> exact ⟨rfl, by simp [toJson, Table.find?, Tag.kindField]⟩

theorem Param.tagged_toJson (p : Param) : p.toJson.Tagged p.tag :=
  ⟨rfl, by simp [toJson, Table.find?, Tag.kindField]⟩

theorem Term.tagged_toJson (e : Term) : e.toJson.Tagged e.tag := by
  cases e with
  | strayType t => exact t.tagged_toJson
  | strayParam p => exact p.tagged_toJson
  | _ => exact ⟨rfl, by simp [toJson, Table.find?, Tag.kindField]⟩

/-! ## Annotations -/

namespace TypeExpr

variable {file : String}

mutual

theorem inFile_eq (t u : TypeExpr) (h : t.toJson = u.toJson) : t.inFile file = u.inFile file := by
  obtain ⟨hkind, hlocation, hparts⟩ := t.tagged_toJson.alike u.tagged_toJson h file
  cases t with
  | named x l =>
    cases u with
    | named x' l' =>
      have hname : x = x' := by simpa [toJson, Json.isPart] using hparts
      rw [inFile, inFile, hname]
      exact congrArg _ hlocation
    | _ => cases hkind
  | quoted x l =>
    cases u with
    | quoted x' l' =>
      have hname : x = x' := by simpa [toJson, Json.isPart] using hparts
      rw [inFile, inFile, hname]
      exact congrArg _ hlocation
    | _ => cases hkind
  | arrow params result l =>
    cases u with
    | arrow params' result' l' =>
      obtain ⟨hparams, hresult⟩ :
          toJsonAll params = toJsonAll params' ∧ result.toJson = result'.toJson := by
        simpa [toJson, Json.isPart] using hparts
      rw [inFile, inFile, inFileAll_eq params params' hparams, inFile_eq result result' hresult]
      exact congrArg _ hlocation
    | _ => cases hkind

theorem inFileAll_eq (ts us : List TypeExpr) (h : toJsonAll ts = toJsonAll us) :
    inFileAll file ts = inFileAll file us := by
  cases ts with
  | nil =>
    cases us with
    | nil => rfl
    | cons u us => simp [toJsonAll] at h
  | cons t ts =>
    cases us with
    | nil => simp [toJsonAll] at h
    | cons u us =>
      rw [toJsonAll, toJsonAll, List.cons.injEq] at h
      rw [inFileAll, inFileAll, inFile_eq t u h.1, inFileAll_eq ts us h.2]

end

theorem inFileOption_eq {o o' : Option TypeExpr} (h : toJsonOption o = toJsonOption o') :
    o.map (inFile file) = o'.map (inFile file) := by
  rcases o with _ | t <;> rcases o' with _ | u
  · rfl
  · exact absurd h.symm u.tagged_toJson.ne_null
  · exact absurd h t.tagged_toJson.ne_null
  · exact congrArg some (inFile_eq t u h)

end TypeExpr

/-! ## Parameters -/

namespace Param

variable {file : String}

theorem inFile_eq {p q : Param} (h : p.toJson = q.toJson) : p.inFile file = q.inFile file := by
  obtain ⟨-, hlocation, hparts⟩ := p.tagged_toJson.alike q.tagged_toJson h file
  obtain ⟨hname, hascription⟩ : p.name = q.name ∧
      TypeExpr.toJsonOption p.ascription = TypeExpr.toJsonOption q.ascription := by
    simpa [toJson, Json.isPart] using hparts
  rw [inFile, inFile, hname, TypeExpr.inFileOption_eq hascription]
  exact congrArg _ hlocation

theorem map_inFile_eq {ps qs : List Param} (h : ps.map toJson = qs.map toJson) :
    ps.map (inFile file) = qs.map (inFile file) := by
  induction ps generalizing qs with
  | nil =>
    obtain rfl : qs = [] := by simpa using h.symm
    rfl
  | cons p ps ih =>
    cases qs with
    | nil => cases h
    | cons q qs =>
      rw [List.map_cons, List.map_cons, List.cons.injEq] at h
      rw [List.map_cons, List.map_cons, inFile_eq h.1, ih h.2]

end Param

/-! ## Expressions and statements -/

namespace Term

variable {file : String}

mutual

/-- What is dumped the same is the same in one file. -/
theorem inFile_eq (e f : Term) (h : e.toJson = f.toJson) : e.inFile file = f.inFile file := by
  obtain ⟨hkind, hlocation, hparts⟩ := e.tagged_toJson.alike f.tagged_toJson h file
  -- the kind tells the constructor, once it is known which annotation a stray one is
  cases e with
  | number v l =>
    cases f with
    | number v' l' =>
      have hvalue : v = v' := by simpa [toJson, Json.isPart] using hparts
      rw [inFile, inFile, hvalue]
      exact congrArg _ hlocation
    | strayType t => cases t <;> cases hkind
    | _ => cases hkind
  | boolean v l =>
    cases f with
    | boolean v' l' =>
      have hvalue : v = v' := by simpa [toJson, Json.isPart] using hparts
      rw [inFile, inFile, hvalue]
      exact congrArg _ hlocation
    | strayType t => cases t <;> cases hkind
    | _ => cases hkind
  | name x l =>
    cases f with
    | name x' l' =>
      have hname : x = x' := by simpa [toJson, Json.isPart] using hparts
      rw [inFile, inFile, hname]
      exact congrArg _ hlocation
    | strayType t => cases t <;> cases hkind
    | _ => cases hkind
  | binary left op right l =>
    cases f with
    | binary left' op' right' l' =>
      obtain ⟨hleft, hop, hright⟩ :
          left.toJson = left'.toJson ∧ op = op' ∧ right.toJson = right'.toJson := by
        simpa [toJson, Json.isPart] using hparts
      rw [inFile, inFile, inFile_eq left left' hleft, hop, inFile_eq right right' hright]
      exact congrArg _ hlocation
    | strayType t => cases t <;> cases hkind
    | _ => cases hkind
  | call callee arguments l =>
    cases f with
    | call callee' arguments' l' =>
      obtain ⟨harguments, hcallee⟩ :
          toJsonAll arguments = toJsonAll arguments' ∧ callee.toJson = callee'.toJson := by
        simpa [toJson, Json.isPart] using hparts
      rw [inFile, inFile, inFile_eq callee callee' hcallee,
        inFileAll_eq arguments arguments' harguments]
      exact congrArg _ hlocation
    | strayType t => cases t <;> cases hkind
    | _ => cases hkind
  | lambda params body l =>
    cases f with
    | lambda params' body' l' =>
      obtain ⟨hbody, hparams⟩ :
          body.toJson = body'.toJson ∧ params.map Param.toJson = params'.map Param.toJson := by
        simpa [toJson, Json.isPart] using hparts
      rw [inFile, inFile, inFile_eq body body' hbody, Param.map_inFile_eq hparams]
      exact congrArg _ hlocation
    | strayType t => cases t <;> cases hkind
    | _ => cases hkind
  | block statements result l =>
    cases f with
    | block statements' result' l' =>
      obtain ⟨hresult, hstatements⟩ :
          toJsonOption result = toJsonOption result' ∧
            toJsonAll statements = toJsonAll statements' := by
        simpa [toJson, Json.isPart] using hparts
      rw [inFile, inFile, inFileOption_eq result result' hresult,
        inFileAll_eq statements statements' hstatements]
      exact congrArg _ hlocation
    | strayType t => cases t <;> cases hkind
    | _ => cases hkind
  | conditional condition thenBranch elseBranch l =>
    cases f with
    | conditional condition' thenBranch' elseBranch' l' =>
      obtain ⟨hcondition, helse, hthen⟩ :
          condition.toJson = condition'.toJson ∧ elseBranch.toJson = elseBranch'.toJson ∧
            thenBranch.toJson = thenBranch'.toJson := by
        simpa [toJson, Json.isPart] using hparts
      rw [inFile, inFile, inFile_eq condition condition' hcondition,
        inFile_eq thenBranch thenBranch' hthen, inFile_eq elseBranch elseBranch' helse]
      exact congrArg _ hlocation
    | strayType t => cases t <;> cases hkind
    | _ => cases hkind
  | letBinding x value ascription l =>
    cases f with
    | letBinding x' value' ascription' l' =>
      obtain ⟨hname, hascription, hvalue⟩ :
          x = x' ∧ TypeExpr.toJsonOption ascription = TypeExpr.toJsonOption ascription' ∧
            value.toJson = value'.toJson := by
        simpa [toJson, Json.isPart] using hparts
      rw [inFile, inFile, hname, inFile_eq value value' hvalue,
        TypeExpr.inFileOption_eq hascription]
      exact congrArg _ hlocation
    | strayType t => cases t <;> cases hkind
    | _ => cases hkind
  | definition g params returns body l =>
    cases f with
    | definition g' params' returns' body' l' =>
      obtain ⟨hbody, hname, hparams, hreturns⟩ :
          body.toJson = body'.toJson ∧ g = g' ∧
            params.map Param.toJson = params'.map Param.toJson ∧
            TypeExpr.toJsonOption returns = TypeExpr.toJsonOption returns' := by
        simpa [toJson, Json.isPart] using hparts
      rw [inFile, inFile, hname, Param.map_inFile_eq hparams, TypeExpr.inFileOption_eq hreturns,
        inFile_eq body body' hbody]
      exact congrArg _ hlocation
    | strayType t => cases t <;> cases hkind
    | _ => cases hkind
  | discard expression l =>
    cases f with
    | discard expression' l' =>
      have hexpression : expression.toJson = expression'.toJson := by
        simpa [toJson, Json.isPart] using hparts
      rw [inFile, inFile, inFile_eq expression expression' hexpression]
      exact congrArg _ hlocation
    | strayType t => cases t <;> cases hkind
    | _ => cases hkind
  | strayParam p =>
    cases f with
    | strayParam p' =>
      rw [inFile, inFile, Param.inFile_eq h]
    | strayType t => cases t <;> cases hkind
    | _ => cases hkind
  | strayType t =>
    cases f with
    | strayType t' => rw [inFile, inFile, TypeExpr.inFile_eq t t' h]
    | _ => cases t <;> cases hkind
  | strayProgram statements result l =>
    cases f with
    | strayProgram statements' result' l' =>
      obtain ⟨hresult, hstatements⟩ :
          toJsonOption result = toJsonOption result' ∧
            toJsonAll statements = toJsonAll statements' := by
        simpa [toJson, Json.isPart] using hparts
      rw [inFile, inFile, inFileOption_eq result result' hresult,
        inFileAll_eq statements statements' hstatements]
      exact congrArg _ hlocation
    | strayType t => cases t <;> cases hkind
    | _ => cases hkind

theorem inFileAll_eq (es fs : List Term) (h : toJsonAll es = toJsonAll fs) :
    inFileAll file es = inFileAll file fs := by
  cases es with
  | nil =>
    cases fs with
    | nil => rfl
    | cons f fs => simp [toJsonAll] at h
  | cons e es =>
    cases fs with
    | nil => simp [toJsonAll] at h
    | cons f fs =>
      rw [toJsonAll, toJsonAll, List.cons.injEq] at h
      rw [inFileAll, inFileAll, inFile_eq e f h.1, inFileAll_eq es fs h.2]

theorem inFileOption_eq (o o' : Option Term) (h : toJsonOption o = toJsonOption o') :
    inFileOption file o = inFileOption file o' := by
  rcases o with _ | e <;> rcases o' with _ | f
  · rfl
  · rw [toJsonOption, toJsonOption] at h
    exact absurd h.symm f.tagged_toJson.ne_null
  · rw [toJsonOption, toJsonOption] at h
    exact absurd h e.tagged_toJson.ne_null
  · rw [toJsonOption, toJsonOption] at h
    rw [inFileOption, inFileOption, inFile_eq e f h]

end

end Term

/-! ## Files are not dumped -/

namespace TypeExpr

mutual

@[simp] theorem toJson_inFile (file : String) (t : TypeExpr) :
    (t.inFile file).toJson = t.toJson := by
  cases t with
  | named x l | quoted x l => simp [inFile, toJson, tag, Tag.kindField]
  | arrow params result l =>
    simp [inFile, toJson, tag, Tag.kindField, toJsonAll_inFile file params,
      toJson_inFile file result]

theorem toJsonAll_inFile (file : String) (ts : List TypeExpr) :
    toJsonAll (inFileAll file ts) = toJsonAll ts := by
  cases ts with
  | nil => rfl
  | cons t ts =>
    rw [inFileAll, toJsonAll, toJsonAll, toJson_inFile file t, toJsonAll_inFile file ts]

end

@[simp] theorem toJsonOption_inFile (file : String) (o : Option TypeExpr) :
    toJsonOption (o.map (inFile file)) = toJsonOption o := by
  cases o <;> simp [toJsonOption]

end TypeExpr

@[simp] theorem Param.toJson_inFile (file : String) (p : Param) :
    (p.inFile file).toJson = p.toJson := by
  simp [inFile, toJson, tag, Tag.kindField]

namespace Term

mutual

theorem toJson_inFile (file : String) (e : Term) : (e.inFile file).toJson = e.toJson := by
  cases e with
  | number v l | boolean v l | name x l => simp [inFile, toJson, tag, Tag.kindField]
  | binary left op right l =>
    simp [inFile, toJson, tag, Tag.kindField, toJson_inFile file left, toJson_inFile file right]
  | call callee arguments l =>
    simp [inFile, toJson, tag, Tag.kindField, toJson_inFile file callee,
      toJsonAll_inFile file arguments]
  | lambda params body l | definition g params returns body l =>
    simp [inFile, toJson, tag, Tag.kindField, toJson_inFile file body]
  | block statements result l | strayProgram statements result l =>
    simp [inFile, toJson, tag, Tag.kindField, toJsonAll_inFile file statements,
      toJsonOption_inFile file result]
  | conditional condition thenBranch elseBranch l =>
    simp [inFile, toJson, tag, Tag.kindField, toJson_inFile file condition,
      toJson_inFile file thenBranch, toJson_inFile file elseBranch]
  | letBinding x value ascription l =>
    simp [inFile, toJson, tag, Tag.kindField, toJson_inFile file value]
  | discard expression l =>
    simp [inFile, toJson, tag, Tag.kindField, toJson_inFile file expression]
  | strayParam p => simp [inFile, toJson]
  | strayType t => simp [inFile, toJson]

theorem toJsonAll_inFile (file : String) (es : List Term) :
    toJsonAll (inFileAll file es) = toJsonAll es := by
  cases es with
  | nil => rfl
  | cons e es =>
    rw [inFileAll, toJsonAll, toJsonAll, toJson_inFile file e, toJsonAll_inFile file es]

theorem toJsonOption_inFile (file : String) (o : Option Term) :
    toJsonOption (inFileOption file o) = toJsonOption o := by
  cases o with
  | none => rfl
  | some e => rw [inFileOption, toJsonOption, toJsonOption, toJson_inFile file e]

end

end Term

/-! ## Programs -/

namespace Program

theorem toJson_inFile (file : String) (p : Program) : (p.inFile file).toJson = p.toJson :=
  Term.toJson_inFile file (.strayProgram p.statements p.result p.location)

/-- Two programs are dumped as the same text just if they are the same node for node, with all
names, values, operators, missing parts, lines and columns, once both are moved to one file. -/
theorem a_dump_loses_nothing_but_files (p q : Program) (file : String) :
    p.dump = q.dump ↔ p.inFile file = q.inFile file := by
  constructor
  · intro h
    have htree : (Term.strayProgram p.statements p.result p.location).inFile file =
        (Term.strayProgram q.statements q.result q.location).inFile file :=
      Term.inFile_eq _ _ (Json.render_injective h)
    simp only [Term.inFile, Term.strayProgram.injEq] at htree
    obtain ⟨hstatements, hresult, hlocation⟩ := htree
    rw [inFile, inFile, hstatements, hresult, hlocation]
  · intro h
    rw [dump, dump, ← toJson_inFile file p, ← toJson_inFile file q, h]

end Program

end LetPoly
