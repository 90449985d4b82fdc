import SsaForm.Code.Decoding
import SsaForm.Code.Encoding

/-!
# Reading back what was written

What a value is, is told by its shape: a type by being a string or an object, a line of a body
by whether it has a label, a constant by how it is written. Records are written as objects, with
their fields in order and none of them twice. Parts that are absent or empty are left out, and
what is left out is read as absent or empty. So every program is read back from its encoding, if
its constants are truth values and integers.
-/

namespace SsaForm

namespace Json

variable {α : Type} {read : Json → Option α} {write : α → Json}

theorem lookup_optionalField (name key : String) (write : α → Json) (value : Option α) :
    (optionalField name write value).lookup key = if key = name then value.map write else none := by
  cases value with
  | none => simp [optionalField]
  | some value => by_cases same : key = name <;> simp [optionalField, same]

theorem lookup_listField (name key : String) (write : α → Json) (items : List α) :
    (listField name write items).lookup key =
      if key = name ∧ items ≠ [] then some (.array (items.map write)) else none := by
  cases items with
  | nil => simp [listField]
  | cons item rest => by_cases same : key = name <;> simp [listField, same]

theorem sublist_optionalField (name : String) (write : α → Json) (value : Option α) :
    ((optionalField name write value).map Prod.fst).Sublist [name] := by
  cases value with
  | none => exact List.nil_sublist _
  | some value => exact List.Sublist.refl _

theorem sublist_listField (name : String) (write : α → Json) (items : List α) :
    ((listField name write items).map Prod.fst).Sublist [name] := by
  cases items with
  | nil => exact List.nil_sublist _
  | cons item rest => exact List.Sublist.refl _

/-- An object that holds fields of a record in their order, and no others, is that record. -/
theorem record?_object {names : List String} {fields : Record} (distinct : names.Nodup)
    (part : (fields.map Prod.fst).Sublist names) :
    record? names (.object fields) = some fields := by
  have known : fields.filter (fun field => field.1 ∈ names) = fields := by
    rw [List.filter_eq_self]
    intro field inside
    exact decide_eq_true (part.subset (List.mem_map_of_mem inside))
  rw [record?, known]
  exact if_pos (distinct.sublist part)

theorem items?_array {items : List α} (each : ∀ a ∈ items, read (write a) = some a) :
    items? read (.array (items.map write)) = some items := by
  rw [items?]
  induction items with
  | nil => rfl
  | cons a rest inductionHypothesis =>
    obtain ⟨first, others⟩ := List.forall_mem_cons.mp each
    simp [List.mapM_cons, first, inductionHypothesis others]

namespace Record

variable {record : Record} {name : String}

/-- A part that is left out if it is absent is read back. -/
theorem nullable?_eq {part : Option α} (found : record.lookup name = part.map write)
    (each : ∀ a, part = some a → read (write a) = some a ∧ write a ≠ .null) :
    record.nullable? read name = some part := by
  rw [nullable?, found]
  cases part with
  | none => rfl
  | some a =>
    obtain ⟨reads, present⟩ := each a rfl
    simp [reads]

/-- A list that is left out if it is empty is read back. -/
theorem list?_eq {items : List α}
    (found : record.lookup name = if items ≠ [] then some (.array (items.map write)) else none)
    (each : ∀ a ∈ items, read (write a) = some a) :
    record.list? read name = some items := by
  rw [list?, found]
  cases items with
  | nil => rfl
  | cons first rest => exact items?_array each

theorem list?_strings {texts : List String}
    (found : record.lookup name =
      if texts ≠ [] then some (.array (texts.map .string)) else none) :
    record.list? string? name = some texts :=
  list?_eq found fun _ _ => rfl

end Record

end Json

namespace Ty

theorem ofJson?_toJson (ty : Ty) : Ty.ofJson? ty.toJson = some ty := by
  induction ty with
  | primitive name => rfl
  | parameterized constructor inner inductionHypothesis =>
    simp [toJson, ofJson?, ofFields?, inductionHypothesis, application?]

theorem toJson_ne_null (ty : Ty) : ty.toJson ≠ .null := by
  cases ty <;> nofun

theorem nullable?_eq {record : Json.Record} {name : String} {ty : Option Ty}
    (found : record.lookup name = ty.map toJson) : record.nullable? Ty.ofJson? name = some ty :=
  Json.Record.nullable?_eq found fun ty _ => ⟨ty.ofJson?_toJson, ty.toJson_ne_null⟩

end Ty

namespace Literal

/-- A truth value or an integer. -/
def Discrete : Literal → Prop
  | .bool _ | .int _ => True
  | .float _ => False

instance decidableDiscrete : (literal : Literal) → Decidable literal.Discrete
  | .bool _ | .int _ => isTrue trivial
  | .float _ => isFalse id

theorem ofJson?_toJson {literal : Literal} (discrete : literal.Discrete) :
    Literal.ofJson? literal.toJson = some literal := by
  cases literal with
  | bool value => rfl
  | int value =>
    have fits : Int64.minValue.toInt ≤ value.toInt ∧ value.toInt ≤ Int64.maxValue.toInt :=
      ⟨value.minValue_le_toInt, value.toInt_le⟩
    rw [toJson, ofJson?, ofNumber, if_pos fits, Int64.ofInt_toInt]
  | float value => exact discrete.elim

theorem toJson_ne_null {literal : Literal} (discrete : literal.Discrete) :
    literal.toJson ≠ .null := by
  cases literal with
  | bool value => nofun
  | int value => nofun
  | float value => exact discrete.elim

end Literal

namespace Instr

/-- If there is a constant, it is a truth value or an integer. -/
def Discrete (i : Instr) : Prop :=
  ∀ literal ∈ i.value, literal.Discrete

instance decidableDiscrete (i : Instr) : Decidable i.Discrete :=
  inferInstanceAs (Decidable (∀ literal ∈ i.value, literal.Discrete))

/-- Every part that is present is found under its name. There are no other fields: in
particular, there is no label. -/
theorem lookup_fields (i : Instr) (name : String) :
    i.fields.lookup name =
      if name = "op" then some (.string i.op)
      else if name = "dest" then i.dest.map .string
      else if name = "type" then i.ty.map Ty.toJson
      else if name = "args" ∧ i.args ≠ [] then some (.array (i.args.map .string))
      else if name = "labels" ∧ i.labels ≠ [] then some (.array (i.labels.map .string))
      else if name = "funcs" ∧ i.funcs ≠ [] then some (.array (i.funcs.map .string))
      else if name = "value" then i.value.map Literal.toJson
      else none := by
  rw [fields, List.lookup_cons]
  simp only [List.lookup_append, Json.lookup_optionalField, Json.lookup_listField]
  grind

theorem sublist_fields (i : Instr) :
    (i.fields.map Prod.fst).Sublist ["op", "dest", "type", "args", "labels", "funcs", "value"] := by
  simp only [fields, List.map_cons, List.map_append, List.append_assoc]
  apply List.Sublist.cons_cons
  exact (Json.sublist_optionalField _ _ _).append <| (Json.sublist_optionalField _ _ _).append <|
    (Json.sublist_listField _ _ _).append <| (Json.sublist_listField _ _ _).append <|
    (Json.sublist_listField _ _ _).append (Json.sublist_optionalField _ _ _)

theorem ofJson?_toJson {i : Instr} (discrete : i.Discrete) : Instr.ofJson? i.toJson = some i := by
  have record := Json.record?_object (by decide) i.sublist_fields
  have op : i.fields.required? Json.string? "op" = some i.op := by
    rw [Json.Record.required?, lookup_fields]
    rfl
  have dest : i.fields.nullable? Json.string? "dest" = some i.dest :=
    Json.Record.nullable?_eq (lookup_fields i "dest") fun _ _ => ⟨rfl, nofun⟩
  have ty : i.fields.nullable? Ty.ofJson? "type" = some i.ty :=
    Ty.nullable?_eq (lookup_fields i "type")
  have args : i.fields.list? Json.string? "args" = some i.args :=
    Json.Record.list?_strings (by simp [lookup_fields])
  have labels : i.fields.list? Json.string? "labels" = some i.labels :=
    Json.Record.list?_strings (by simp [lookup_fields])
  have funcs : i.fields.list? Json.string? "funcs" = some i.funcs :=
    Json.Record.list?_strings (by simp [lookup_fields])
  have value : i.fields.nullable? Literal.ofJson? "value" = some i.value :=
    Json.Record.nullable?_eq (by simp [lookup_fields]) fun literal present =>
      ⟨Literal.ofJson?_toJson (discrete literal present),
        Literal.toJson_ne_null (discrete literal present)⟩
  simp [Instr.ofJson?, toJson, record, op, dest, ty, args, labels, funcs, value]

end Instr

namespace Item

theorem labelOfJson?_instr (i : Instr) : labelOfJson? i.toJson = none := by
  have unlabelled : i.fields.filter (fun field => field.1 ∈ ["label"]) = [] := by
    rw [List.filter_eq_nil_iff]
    rintro ⟨name, value⟩ inside labelled
    have known := i.sublist_fields.subset (List.mem_map_of_mem inside)
    rw [List.mem_singleton.mp (of_decide_eq_true labelled)] at known
    exact absurd known (by decide)
  rw [Instr.toJson, labelOfJson?, Json.record?, unlabelled]
  rfl

theorem ofJson?_toJson {item : Item} (discrete : ∀ i, item.instr? = some i → i.Discrete) :
    Item.ofJson? item.toJson = some item := by
  cases item with
  | label name => rfl
  | instr i =>
    rw [toJson, ofJson?, labelOfJson?_instr, Instr.ofJson?_toJson (discrete i rfl)]
    rfl

end Item

theorem Param.ofJson?_toJson (p : Param) : Param.ofJson? p.toJson = some p := by
  have record : p.toJson.record? ["name", "type"] =
      some [("name", .string p.name), ("type", p.ty.toJson)] :=
    Json.record?_object (by decide) (List.Sublist.refl _)
  have name : Json.Record.required? Json.string? "name"
      [("name", .string p.name), ("type", p.ty.toJson)] = some p.name := rfl
  have ty : Json.Record.required? Ty.ofJson? "type"
      [("name", .string p.name), ("type", p.ty.toJson)] = some p.ty := p.ty.ofJson?_toJson
  simp [ofJson?, record, name, ty]

namespace Function

/-- The constants are truth values and integers. -/
def Discrete (f : Function) : Prop :=
  ∀ i ∈ f.instrs, i.Discrete

instance decidableDiscrete (f : Function) : Decidable f.Discrete :=
  inferInstanceAs (Decidable (∀ i ∈ f.instrs, i.Discrete))

theorem lookup_fields (f : Function) (name : String) :
    f.fields.lookup name =
      if name = "name" then some (.string f.name)
      else if name = "args" ∧ f.params ≠ [] then some (.array (f.params.map Param.toJson))
      else if name = "type" then f.result.map Ty.toJson
      else if name = "instrs" then some (.array (f.body.map Item.toJson))
      else none := by
  rw [fields, List.lookup_cons]
  simp only [List.lookup_append, Json.lookup_optionalField, Json.lookup_listField]
  grind

theorem sublist_fields (f : Function) :
    (f.fields.map Prod.fst).Sublist ["name", "args", "type", "instrs"] := by
  simp only [fields, List.map_cons, List.map_append, List.append_assoc]
  apply List.Sublist.cons_cons
  exact (Json.sublist_listField _ _ _).append <| (Json.sublist_optionalField _ _ _).append <|
    List.Sublist.refl _

theorem ofJson?_toJson {f : Function} (discrete : f.Discrete) :
    Function.ofJson? f.toJson = some f := by
  have record := Json.record?_object (by decide) f.sublist_fields
  have name : f.fields.required? Json.string? "name" = some f.name := by
    rw [Json.Record.required?, lookup_fields]
    rfl
  have params : f.fields.list? Param.ofJson? "args" = some f.params :=
    Json.Record.list?_eq (by simp [lookup_fields]) fun p _ => p.ofJson?_toJson
  have result : f.fields.nullable? Ty.ofJson? "type" = some f.result :=
    Ty.nullable?_eq (by simp [lookup_fields])
  have body : f.fields.list? Item.ofJson? "instrs" = some f.body := by
    have found : f.fields.lookup "instrs" = some (.array (f.body.map Item.toJson)) := by
      simp [lookup_fields]
    rw [Json.Record.list?, found]
    refine Json.items?_array fun item mem => Item.ofJson?_toJson fun i same => ?_
    exact discrete i (List.mem_filterMap.mpr ⟨item, mem, same⟩)
  simp [Function.ofJson?, toJson, record, name, params, result, body]

end Function

namespace Program

/-- The constants are truth values and integers. -/
def Discrete (p : Program) : Prop :=
  ∀ f ∈ p.functions, f.Discrete

instance decidableDiscrete (p : Program) : Decidable p.Discrete :=
  inferInstanceAs (Decidable (∀ f ∈ p.functions, f.Discrete))

theorem ofJson?_toJson {p : Program} (discrete : p.Discrete) :
    Program.ofJson? p.toJson = some p := by
  have record : p.toJson.record? ["functions"] =
      some [("functions", .array (p.functions.map Function.toJson))] :=
    Json.record?_object (by decide) (List.Sublist.refl _)
  have functions : Json.items? Function.ofJson? (.array (p.functions.map Function.toJson)) =
      some p.functions :=
    Json.items?_array fun f mem => Function.ofJson?_toJson (discrete f mem)
  simp [Program.ofJson?, record, Json.Record.required?, functions]

/-- Reading undoes writing for every program whose constants are truth values and integers.
So however such a program was written at first, writing what was read from it and reading that
gives the same program once more. -/
theorem reading_undoes_writing (p : Program) (discrete : p.Discrete) :
    Program.ofJson? p.toJson = some p ∧
      ∀ j, Program.ofJson? j = some p →
        ((Program.ofJson? j).map toJson).bind Program.ofJson? = some p := by
  refine ⟨ofJson?_toJson discrete, fun j read => ?_⟩
  rw [read]
  exact ofJson?_toJson discrete

/-- The names of its types and labels are names of fields, one label follows another, one
instruction has every part and another one none, and a constant is as small as can be. -/
def intricate : Program where
  functions := [
    { name := "label"
      params := [{ name := "op", ty := .parameterized "label" (.primitive "type") }]
      result := some (.parameterized "functions" (.parameterized "" (.primitive "null")))
      body := [
        .label "op",
        .label "",
        .instr
          { op := "const", dest := some "value",
            ty := some (.parameterized "value" (.primitive "bool")),
            args := ["label", ""], labels := ["op"], funcs := ["label"],
            value := some (.bool false) },
        .instr { op := "label" },
        .instr { op := "const", dest := some "", value := some (.int Int64.minValue) }] },
    { name := "" }]

/-- The same program, written at length: records as arrays, absent parts as null, empty lists,
fields of no meaning that stand there twice, a constructor with two inner types, an operation
beside a label, and an operation that names two labels and so has none. -/
def intricateAtLength : Json :=
  .array [.array [
    .object [
      ("pos", .null),
      ("instrs", .array [
        .object [("op", .string "jmp"), ("label", .string "op"), ("op", .null)],
        .object [("label", .string ""), ("pos", .array [])],
        .array [
          .string "const", .string "value",
          .object [("value", .string "int"), ("value", .string "bool")],
          .array [.string "label", .string ""], .array [.string "op"], .array [.string "label"],
          .bool false],
        .object [
          ("label", .string ""), ("op", .string "label"), ("label", .string "op"), ("dest", .null),
          ("type", .null), ("args", .array []), ("value", .null)],
        .object [
          ("value", .number (.integer (-9223372036854775808))), ("dest", .string ""),
          ("op", .string "const")]]),
      ("type", .object [("functions", .object [("", .string "null")])]),
      ("args", .array [.array [.string "op", .object [("label", .string "type")]]]),
      ("name", .string "label"),
      ("pos", .bool true)],
    .array [.string "", .array [], .null]]]

theorem reading_undoes_writing_intricate :
    intricate.Discrete ∧
      Program.ofJson? intricate.toJson = some intricate ∧
      Program.ofJson? intricateAtLength = some intricate ∧
      ((Program.ofJson? intricateAtLength).map toJson).bind Program.ofJson? =
        some intricate := by
  have discrete : intricate.Discrete := by decide +kernel
  have read : Program.ofJson? intricateAtLength = some intricate := by decide +kernel
  obtain ⟨back, again⟩ := reading_undoes_writing intricate discrete
  exact ⟨discrete, back, read, again intricateAtLength read⟩

end Program

end SsaForm
