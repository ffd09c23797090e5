import Dataflow.Command.Run
import Dataflow.Proofs.Json.RoundTrip

/-! Descriptions are read back from the text they are written as. -/

open List

namespace Dataflow

namespace Json

variable {α : Type} {names : List String} {members : List (String × Json)} {read : Json → Option α}
  {write : α → Json}

@[simp] theorem text?_ofString (text : String) : text? (ofString text) = some text := rfl

@[simp] theorem flag?_bool (val : Bool) : flag? (.bool val) = some val := rfl

@[simp] theorem nullable?_ofString (read : Json → Option α) (text : String) :
    nullable? read (ofString text) = (read (ofString text)).map some := rfl

@[simp] theorem nullable?_ofNat (read : Json → Option α) (val : Nat) :
    nullable? read (ofNat val) = (read (ofNat val)).map some := rfl

@[simp] theorem nullable?_ofMembers (read : Json → Option α) (members : List (String × Json)) :
    nullable? read (.ofMembers members) = (read (.ofMembers members)).map some := rfl

@[simp] theorem word?_ofNat (val : UInt64) : word? (ofNat val.toNat) = some val := by
  have small : val.toNat < UInt64.size := val.toNat_lt_size
  simp [word?, ofNat, Number.toNat?, small]

theorem list?_map {values : List α} (back : ∀ val, read (write val) = some val) :
    list? read (.array (values.map write)) = some values := by
  induction values with
  | nil => rfl
  | cons val values ih =>
    have rest : (values.map write).mapM read = some values := ih
    simp [list?, back, rest]

@[simp] theorem list?_ofStrings (texts : List String) :
    list? text? (ofStrings texts) = some texts :=
  list?_map text?_ofString

theorem known?_map (once : ((members.filter (·.1 ∈ names)).map (·.1)).Nodup) :
    known? names (members.map fun (key, val) => (some key, val)) =
      some (members.filter (·.1 ∈ names)) := by
  have whole : (members.map fun (key, val) => (some key, val)).mapM
      (fun (key, val) => key.map (·, val)) = some members := by
    clear once
    induction members with
    | nil => rfl
    | cons mem members ih => rw [map_cons, mapM_cons, ih]; rfl
  rw [known?, whole]
  exact if_pos once

theorem record?_ofMembers (fields : (members.map (·.1)).Sublist names) (once : names.Nodup) :
    record? names (.ofMembers members) = some members := by
  have all : members.filter (·.1 ∈ names) = members := filter_eq_self.mpr fun member mem => by
    simpa using fields.subset (mem_map_of_mem mem)
  have known := @known?_map names members (by rw [all]; exact fields.nodup once)
  rwa [all] at known

theorem lookup_memberIfSome (key name : String) (val : Option α) :
    (memberIfSome key write val).lookup name = if name = key then val.map write else none := by
  by_cases same : name = key
  · cases val <;> simp [memberIfSome, same]
  · have differs : (name == key) = false := by simpa using same
    cases val <;> simp [memberIfSome, lookup_cons, same, differs]

theorem lookup_memberIfAny (key name : String) (values : List α) :
    (memberIfAny key write values).lookup name =
      if name = key ∧ values ≠ [] then some (.array (values.map write)) else none := by
  by_cases same : name = key
  · by_cases none : values = [] <;> simp [memberIfAny, same, none]
  · have differs : (name == key) = false := by simpa using same
    by_cases none : values = [] <;> simp [memberIfAny, lookup_cons, same, none, differs]

end Json

open Json

@[simp] theorem DataType.ofJson?_toJson (type : DataType) : ofJson? type.toJson = some type := by
  obtain ⟨name, isArray, arraySize⟩ := type
  cases arraySize <;>
    simp [ofJson?, toJson, record?_ofMembers, fieldNames, memberIfSome, Record.required,
    Record.optional, lookup_cons]

@[simp] theorem Parameter.ofJson?_toJson (parameter : Parameter) :
    ofJson? parameter.toJson = some parameter := by
  simp [ofJson?, toJson, record?_ofMembers, fieldNames, Record.required, Record.optional,
    lookup_cons]

@[simp] theorem Func.ofJson?_toJson (fn : Func) : ofJson? fn.toJson = some fn := by
  simp [ofJson?, toJson, record?_ofMembers, fieldNames, Record.required, lookup_cons,
    list?_map Parameter.ofJson?_toJson]

@[simp] theorem PortDecl.ofJson?_toJson (port : PortDecl) : ofJson? port.toJson = some port := by
  obtain ⟨name, dataType⟩ := port
  cases dataType with
  | none =>
    simp [ofJson?, toJson, record?_ofMembers, fieldNames, memberIfSome, Record.required,
      Record.optional, lookup_cons]
  | some dataType =>
    have present : nullable? DataType.ofJson? dataType.toJson = some (some dataType) := by
      rw [← Option.map_some, ← dataType.ofJson?_toJson]
      rfl
    simp [ofJson?, toJson, record?_ofMembers, fieldNames, memberIfSome, Record.required,
      Record.optional, lookup_cons, present]

@[simp] theorem Connection.ofJson?_toJson (link : Connection) :
    ofJson? link.toJson = some link := by
  simp [ofJson?, toJson, record?_ofMembers, fieldNames, Record.required, lookup_cons]

theorem Kind.nodup_toMembers (kind : Kind Helpers) : (kind.toMembers.map (·.1)).Nodup := by
  cases kind <;> simp [toMembers, payload]

@[simp] theorem Kind.tag?_ofString (text : String) : tag? (ofString text) = some text := rfl

theorem Kind.ofMembers?_toMembers (kind : Kind Helpers) :
    ofMembers? (kind.toMembers.map fun (key, val) => (some key, val)) = some kind := by
  have known (names : List String) : known? names
      (kind.toMembers.map fun (key, val) => (some key, val)) =
      some (kind.toMembers.filter (·.1 ∈ names)) :=
    known?_map ((filter_sublist.map _).nodup kind.nodup_toMembers)
  unfold ofMembers?
  simp only [known]
  cases kind <;>
    simp [toMembers, payload, Kind.tag, Record.required, Record.optional, lookup_cons,
    list?_map Func.ofJson?_toJson]

theorem Json.plain_memberIfSome {α : Type} {write : α → Json} {depth : Nat} {key : String}
    (plain : ∀ val, (write val).Plain depth) (val : Option α) :
    ∀ mem ∈ memberIfSome key write val, mem.2.Plain depth := by
  cases val with
  | none => exact forall_mem_nil _
  | some val => exact forall_mem_singleton.mpr (plain val)

theorem Json.plain_map {α : Type} {write : α → Json} {depth : Nat}
    (plain : ∀ val, (write val).Plain depth) (values : List α) :
    (Json.array (values.map write)).Plain (depth + 1) := by
  refine .array fun item mem => ?_
  obtain ⟨val, -, rfl⟩ := mem_map.mp mem
  exact plain val

theorem Json.plain_memberIfAny {α : Type} {write : α → Json} {depth : Nat} {key : String}
    (plain : ∀ val, (write val).Plain depth) (values : List α) :
    ∀ mem ∈ memberIfAny key write values, mem.2.Plain (depth + 1) := by
  unfold memberIfAny
  split
  · exact forall_mem_nil _
  · exact forall_mem_singleton.mpr (plain_map plain values)

section

variable (depth : Nat)

include depth

theorem DataType.plain_toJson (type : DataType) : type.toJson.Plain (depth + 1) := by
  refine .object
    (forall_mem_append.mpr ⟨?_, plain_memberIfSome (fun size => .number size) type.arraySize⟩)
  exact forall_mem_cons.mpr ⟨.string type.name, forall_mem_singleton.mpr (.bool type.isArray)⟩

theorem Parameter.plain_toJson (parameter : Parameter) : parameter.toJson.Plain (depth + 2) :=
  .object <|
    forall_mem_cons.mpr
    ⟨.string parameter.name,
      forall_mem_cons.mpr
      ⟨parameter.dataType.plain_toJson depth, forall_mem_singleton.mpr (.bool parameter.isConst)⟩⟩

theorem Func.plain_toJson (fn : Func) : fn.toJson.Plain (depth + 4) :=
  .object <| forall_mem_cons.mpr ⟨.string fn.name, forall_mem_cons.mpr
    ⟨plain_map (Parameter.plain_toJson depth) fn.params, forall_mem_cons.mpr
      ⟨fn.returnType.plain_toJson (depth + 2), forall_mem_singleton.mpr (.string fn.body)⟩⟩⟩

theorem PortDecl.plain_toJson (port : PortDecl) : port.toJson.Plain (depth + 2) :=
  .object <|
    forall_mem_cons.mpr
    ⟨.string port.name, plain_memberIfSome (DataType.plain_toJson depth) port.dataType⟩

theorem Connection.plain_toJson (link : Connection) : link.toJson.Plain (depth + 1) :=
  .object <|
    forall_mem_cons.mpr ⟨.string link.source, forall_mem_singleton.mpr (.string link.target)⟩

theorem Kind.plain_toMembers (kind : Kind Helpers) :
    ∀ mem ∈ kind.toMembers, mem.2.Plain (depth + 5) := by
  refine forall_mem_cons.mpr ⟨.string kind.tag, ?_⟩
  cases kind with
  | map fn | comb fn => exact forall_mem_singleton.mpr (fn.plain_toJson (depth + 1))
  | coalescedMap fns => exact forall_mem_singleton.mpr (plain_map (Func.plain_toJson depth) fns)
  | parallelMap branches fns =>
    exact forall_mem_cons.mpr
      ⟨.number branches, forall_mem_singleton.mpr (plain_map (Func.plain_toJson depth) fns)⟩
  | delay initial => exact forall_mem_singleton.mpr (.string initial)
  | composite helpers =>
    exact forall_mem_cons.mpr
      ⟨plain_map .string helpers.inputs,
        forall_mem_singleton.mpr (plain_map .string helpers.outputs)⟩
  | _ => exact forall_mem_nil _

end

theorem ProcessDecl.not_mem_fieldNames (kind : Kind Helpers) :
    ∀ mem ∈ kind.toMembers, mem.1 ∉ fieldNames := by
  cases kind <;> simp [Kind.toMembers, Kind.payload, fieldNames]

namespace ProcessDecl

/-- The members of a process in front of its kind. -/
def front (process : ProcessDecl) : List (String × Json) :=
  ("id", ofString process.id) :: memberIfSome "parent" ofString process.parent

/-- The members of a process behind its kind. -/
def back (process : ProcessDecl) : List (String × Json) :=
  memberIfAny "in" PortDecl.toJson process.inPorts ++
    memberIfAny "out" PortDecl.toJson process.outPorts

section

variable (proc : ProcessDecl)

include proc

theorem toJson_eq :
    proc.toJson = .ofMembers (proc.front ++ (proc.kind.toMembers ++ proc.back)) := by
  simp [toJson, front, back]

theorem keys_sublist : ((proc.front ++ proc.back).map (·.1)).Sublist fieldNames := by
  obtain ⟨id, parent, kind, inPorts, outPorts⟩ := proc
  cases parent <;> cases inPorts <;> cases outPorts <;>
    simp [front, back, memberIfSome, memberIfAny, fieldNames]

theorem filter_common :
    (proc.front ++ (proc.kind.toMembers ++ proc.back)).filter (·.1 ∈ fieldNames) =
      proc.front ++ proc.back := by
  have common : (proc.front ++ proc.back).filter (·.1 ∈ fieldNames) = proc.front ++ proc.back :=
    filter_eq_self.mpr fun member mem => by
      simpa using proc.keys_sublist.subset (mem_map_of_mem mem)
  have apart : proc.kind.toMembers.filter (·.1 ∈ fieldNames) = [] :=
      filter_eq_nil_iff.mpr fun member mem => by
    simpa using not_mem_fieldNames proc.kind member mem
  rwa [filter_append, filter_append, apart, nil_append, ← filter_append]

theorem filter_others :
    (proc.front ++ (proc.kind.toMembers ++ proc.back)).filter (·.1 ∉ fieldNames) =
      proc.kind.toMembers := by
  have common : (proc.front ++ proc.back).filter (·.1 ∉ fieldNames) = [] :=
    filter_eq_nil_iff.mpr fun member mem => by
      simpa using proc.keys_sublist.subset (mem_map_of_mem mem)
  have own : proc.kind.toMembers.filter (·.1 ∉ fieldNames) = proc.kind.toMembers :=
      filter_eq_self.mpr fun member mem => by
    simpa using not_mem_fieldNames proc.kind member mem
  rw [filter_append, append_eq_nil_iff] at common
  rw [filter_append, filter_append, common.1, common.2, own, nil_append, append_nil]

@[simp] theorem ofJson?_toJson : ofJson? proc.toJson = some proc := by
  have known : known? fieldNames
      ((proc.front ++ (proc.kind.toMembers ++ proc.back)).map fun (key, val) => (some key, val)) =
      some (proc.front ++ proc.back) := by
    rw [← filter_common]
    exact known?_map (by rw [filter_common]; exact proc.keys_sublist.nodup (by decide))
  have others :
      ((proc.front ++ (proc.kind.toMembers ++ proc.back)).map fun (key, val) =>
        (some key, val)).filter
      (fun (key, _) => !fieldNames.any (some · = key)) = proc.kind.toMembers.map fun (key, val) =>
        (some key, val) := by
    have same : (fun (key, _) => !fieldNames.any (some · = key)) ∘
        (fun (key, val) => (some key, val)) = fun mem : String × Json =>
        decide (mem.1 ∉ fieldNames) := by
      funext mem
      simp [any_eq, eq_comm]
    rw [filter_map, same, filter_others]
  have strict : (proc.kind.toMembers.map fun (key, val) => (some key, val)).all
      (fun (_, val) => val.isStrict fieldDepth) := by
    rw [all_map, all_eq_true]
    exact fun mem listed => (proc.kind.plain_toMembers 119 mem listed).isStrict
  rw [toJson_eq]
  simp only [ofJson?, ofMembers, known, others, strict, Kind.ofMembers?_toMembers]
  have parent : Record.optional (proc.front ++ proc.back) "parent" none (nullable? text?) =
      some proc.parent := by
    cases parent : proc.parent <;>
      simp [Record.optional, front, back, parent, lookup_cons, lookup_append, lookup_memberIfSome,
      lookup_memberIfAny]
  have inPorts : Record.optional (proc.front ++ proc.back) "in" [] (list? PortDecl.ofJson?) =
      some proc.inPorts := by
    by_cases none : proc.inPorts = [] <;>
      simp [Record.optional, front, back, none, lookup_cons, lookup_append, lookup_memberIfSome,
        lookup_memberIfAny, list?_map PortDecl.ofJson?_toJson]
  have outPorts : Record.optional (proc.front ++ proc.back) "out" [] (list? PortDecl.ofJson?) =
      some proc.outPorts := by
    by_cases none : proc.outPorts = [] <;>
      simp [Record.optional, front, back, none, lookup_cons, lookup_append, lookup_memberIfSome,
        lookup_memberIfAny, list?_map PortDecl.ofJson?_toJson]
  have id : Record.required (proc.front ++ proc.back) "id" text? = some proc.id := rfl
  simp [id, parent, inPorts, outPorts]

end

end ProcessDecl

@[simp] theorem Description.ofJson?_toJson (description : Description) :
    ofJson? description.toJson = some description := by
  simp [ofJson?, toJson, record?_ofMembers, fieldNames, Record.optional, lookup_cons,
    list?_map ProcessDecl.ofJson?_toJson, list?_map Connection.ofJson?_toJson]

theorem ProcessDecl.plain_toJson (depth : Nat) (proc : ProcessDecl) :
    proc.toJson.Plain (depth + 6) := by
  have ports (ports : List PortDecl) (key : String) : ∀ mem ∈ memberIfAny key PortDecl.toJson ports,
      mem.2.Plain (depth + 5) :=
    plain_memberIfAny (PortDecl.plain_toJson (depth + 2)) ports
  refine .object
    (forall_mem_append.mpr
      ⟨forall_mem_append.mpr
      ⟨forall_mem_append.mpr ⟨?_, proc.kind.plain_toMembers depth⟩, ports proc.inPorts "in"⟩,
      ports proc.outPorts "out"⟩)
  exact forall_mem_cons.mpr ⟨.string proc.id, plain_memberIfSome .string proc.parent⟩

namespace Description

variable (description : Description)

include description

theorem plain_toJson : description.toJson.Plain 8 :=
  .object <|
    forall_mem_cons.mpr
    ⟨plain_map (ProcessDecl.plain_toJson 0) description.processes,
      forall_mem_cons.mpr
      ⟨plain_map (Connection.plain_toJson 5) description.connections, forall_mem_cons.mpr
      ⟨plain_map .string description.inputs,
      forall_mem_singleton.mpr (plain_map .string description.outputs)⟩⟩⟩

theorem parse?_print (layout : Layout) {rest : List Char} (closing : rest = [] ∨ rest = ['\n']) :
    parse? (String.ofList (description.toJson.print layout ++ rest)) = some description := by
  rw [parse?, description.plain_toJson.parse?_print layout closing, Option.bind_some,
    ofJson?_toJson]

theorem parse?_compact : parse? description.compact = some description := by
  have read := description.parse?_print .compact (.inl rfl)
  rwa [append_nil] at read

theorem parse?_pretty : parse? (description.pretty ++ "\n") = some description := by
  have text : description.pretty ++ "\n" =
      String.ofList (description.toJson.print (.indented 0) ++ ['\n']) := by
    rw [String.ofList_append]
    rfl
  rw [text, description.parse?_print (.indented 0) (.inr rfl)]

end Description

/-- Every description is read back from both texts it is written as, so what is emitted for a
network is its description. -/
theorem Description.parse?_written :
    (∀ description, parse? (compact description) = some description) ∧
    (∀ description, parse? (pretty description ++ "\n") = some description) ∧
    ∀ state : Compilation, (Command.render state .network).toOption.bind parse? =
      state.network.describe.toOption := by
  -- The command prints the description of the network, so reading it back is the second case.
  refine ⟨parse?_compact, parse?_pretty, fun state => ?_⟩
  rw [Command.render]
  cases state.network.describe with
  | error fault => rfl
  | ok description => exact description.parse?_pretty

end Dataflow
