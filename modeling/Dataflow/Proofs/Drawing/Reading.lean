import Dataflow.Drawing.Dot
import Mathlib.Data.List.Basic
import Mathlib.Data.String.Basic

/-!
How a drawing in the DOT language is read.

Each line opens a block, closes one or has a statement, as long as no text that is quoted has a line
break, a quote or a backslash.
-/

open List

namespace Dataflow.Dot

/-- The statements on some lines, each with the lines that open the blocks around it. -/
def read : List (List Char) → List (List Char) → List (List (List Char) × List Char)
  | _, [] => []
  | blocks, line :: rest =>
    let statement := line.dropWhile (· = ' ')
    if statement.getLast? = some '\x7b' then read (blocks ++ [statement]) rest
    else if statement = ['\x7d'] then read blocks.dropLast rest
    else (blocks, statement) :: read blocks rest

/-- The statements of a text. -/
def statements (text : String) : List (List (List Char) × List Char) :=
  read [] (text.toList.splitOn '\n')

/-- Characters of names. -/
def isNamePart (char : Char) : Bool :=
  char.isAlphanum || char = '_'

/-- The name at the head of a statement, if it is one of a process and comes before the given
text. -/
def leader? (behind statement : List Char) : Option (List Char × List Char) :=
  let rest := statement.dropWhile isNamePart
  if ['p', '_'].isPrefixOf statement ∧ behind.isPrefixOf rest then
    some (statement.takeWhile isNamePart, rest.drop behind.length)
  else none

/-- The process that a statement declares as a node. -/
def nodeOf? (statement : List Char) : Option (List Char) :=
  (leader? " [".toList statement).map (·.1)

/-- The processes that a statement joins by an edge. -/
def edgeOf? (statement : List Char) : Option (List Char × List Char) := do
  let (source, rest) ← leader? " -> ".toList statement
  if ['p', '_'].isPrefixOf rest then some (source, rest.takeWhile isNamePart) else none

/-- The nodes of processes among statements, each with the blocks around it. -/
def nodesOf (statements : List (List (List Char) × List Char)) :
    List (List (List Char) × List Char) :=
  statements.filterMap fun (blocks, statement) => (nodeOf? statement).map (blocks, ·)

/-- The edges between processes among statements. -/
def edgesOf (statements : List (List (List Char) × List Char)) : List (List Char × List Char) :=
  statements.filterMap fun (_, statement) => edgeOf? statement

/-- A text on one line. -/
def Unbroken (text : String) : Prop :=
  '\n' ∉ text.toList

instance {text : String} : Decidable (Unbroken text) :=
  inferInstanceAs (Decidable (_ ∉ _))

@[simp] theorem unbroken_append {text more : String} :
    Unbroken (text ++ more) ↔ Unbroken text ∧ Unbroken more := by
  simp [Unbroken]

/-- Lines in the given blocks are read one by one, with these nodes and edges. -/
structure Shows (blocks : List (List Char)) (lines : List String)
    (nodes : List (List (List Char) × List Char)) (edges : List (List Char × List Char)) :
    Prop where
  unbroken : ∀ line ∈ lines, Unbroken line
  reads : ∀ rest, ∃ found,
    read blocks (lines.map String.toList ++ rest) = found ++ read blocks rest ∧
    nodesOf found = nodes ∧ edgesOf found = edges

variable {blocks : List (List Char)} {line : String} {lines others : List String}
  {nodes moreNodes : List (List (List Char) × List Char)}
  {edges moreEdges : List (List Char × List Char)}

theorem Shows.append (first : Shows blocks lines nodes edges)
    (second : Shows blocks others moreNodes moreEdges) :
    Shows blocks (lines ++ others) (nodes ++ moreNodes) (edges ++ moreEdges) where
  unbroken := forall_mem_append.mpr ⟨first.unbroken, second.unbroken⟩
  reads rest := by
    obtain ⟨has, reads, rfl, rfl⟩ := first.reads (others.map String.toList ++ rest)
    obtain ⟨more, readsMore, rfl, rfl⟩ := second.reads rest
    exact ⟨has ++ more, by rw [map_append, append_assoc, reads, readsMore, append_assoc],
      filterMap_append,
      filterMap_append⟩

theorem shows_nil : Shows blocks [] [] [] :=
  ⟨forall_mem_nil _, fun _ => ⟨[], rfl, rfl, rfl⟩⟩

theorem shows_flatMap {α : Type} {entries : List α} {write : α → List String}
    {nodes : α → List (List (List Char) × List Char)} {edges : α → List (List Char × List Char)}
    (each : ∀ entry ∈ entries, Shows blocks (write entry) (nodes entry) (edges entry)) :
    Shows blocks (entries.flatMap write) (entries.flatMap nodes) (entries.flatMap edges) := by
  induction entries with
  | nil => exact shows_nil
  | cons entry entries ih =>
    exact (each entry mem_cons_self).append (ih fun other mem => each other (mem_cons_of_mem _ mem))

theorem Shows.indent (shown : Shows blocks lines nodes edges) :
    Shows blocks (lines.map ("    " ++ ·)) nodes edges where
  unbroken := by simpa +decide using shown.unbroken
  reads rest := by
    have same : read blocks ((lines.map ("    " ++ ·)).map String.toList ++ rest) =
        read blocks (lines.map String.toList ++ rest) := by
      clear shown
      induction lines generalizing blocks with
      | nil => rfl
      | cons line lines ih => simp [read, ← ih, dropWhile]
    exact same ▸ shown.reads rest

theorem shows_line (unbroken : Unbroken line) (starts : line.toList.head? ≠ some ' ')
    (ends : line.toList.getLast? ∉ [some '\x7b', some '\x7d']) :
    Shows blocks [line] ((nodeOf? line.toList).map (blocks, ·)).toList
      (edgeOf? line.toList).toList where
  unbroken := by simpa using unbroken
  reads rest := by
    have bare : line.toList.dropWhile (· = ' ') = line.toList := by
      cases isLine : line.toList <;> simp_all
    have closing : line.toList ≠ ['\x7d'] := fun isLine => ends (by simp [isLine])
    simp only [mem_cons, not_mem_nil, or_false, not_or] at ends
    refine ⟨[(blocks, line.toList)], ?_, ?_, ?_⟩
    · simp [read, bare, ends, closing]
    · cases named : nodeOf? line.toList <;> simp [nodesOf, named]
    · cases joined : edgeOf? line.toList <;> simp [edgesOf, joined]

theorem shows_aside (unbroken : Unbroken line) (starts : line.toList.head? ∉ [some ' ', some 'p'])
    (ends : line.toList.getLast? ∉ [some '\x7b', some '\x7d']) : Shows blocks [line] [] [] := by
  have apart : ['p', '_'].isPrefixOf line.toList = false := by
    cases isLine : line.toList <;> simp_all [isPrefixOf, Ne.symm]
  have shown : Shows blocks _ _ _ :=
    shows_line unbroken (fun blank => starts (by simp [blank])) ends
  simpa [nodeOf?, edgeOf?, leader?, apart] using shown

theorem Shows.block (unbroken : Unbroken line) (starts : line.toList.head? ≠ some ' ')
    (opens : line.toList.getLast? = some '\x7b')
    (inside : Shows (blocks ++ [line.toList]) lines nodes edges) :
    Shows blocks ([line] ++ lines ++ ["\x7d"]) nodes edges where
  unbroken := by
    simpa [or_imp, forall_and, unbroken] using ⟨inside.unbroken, show Unbroken "\x7d" by decide⟩
  reads rest := by
    obtain ⟨has, reads, rfl, rfl⟩ := inside.reads (['\x7d'] :: rest)
    have bare : line.toList.dropWhile (· = ' ') = line.toList := by
      cases isLine : line.toList <;> simp_all
    exact ⟨has, by simpa [read, bare, opens] using reads, rfl, rfl⟩

theorem Shows.statements_eq {text : String} (shown : Shows [] lines nodes edges)
    (isText : text = String.join (lines.map (· ++ "\n"))) :
    nodesOf (statements text) = nodes ∧ edgesOf (statements text) = edges := by
  have split : text.toList.splitOn '\n' = lines.map String.toList ++ [[]] := by
    have unbroken := shown.unbroken
    rw [isText, String.toList_join]
    clear shown isText
    induction lines with
    | nil => simp
    | cons line lines ih =>
      obtain ⟨here, behind⟩ := forall_mem_cons.mp unbroken
      rw [map_cons, flatMap_cons, String.toList_append, append_assoc]
      have apart (char : Char) (mem : char ∈ line.toList) : (char == '\n') = false :=
        beq_false_of_ne (ne_of_mem_of_not_mem mem here)
      exact (splitOnP_append_cons_of_forall_mem apart '\n' rfl _).trans
        (congrArg (line.toList :: ·) (ih behind))
  obtain ⟨has, reads, rfl, rfl⟩ := shown.reads [[]]
  rw [statements, split, reads]
  simp [nodesOf, edgesOf, read, nodeOf?, edgeOf?, leader?]

theorem unbroken_intercalate {between : String} {texts : List String} (isBetween : Unbroken between)
    (each : ∀ text ∈ texts, Unbroken text) : Unbroken (between.intercalate texts) := by
  rw [Unbroken, String.toList_intercalate]
  induction texts with
  | nil => exact not_mem_nil
  | cons first texts ih =>
    obtain ⟨here, behind⟩ := forall_mem_cons.mp each
    cases texts with
    | nil => simpa [Unbroken] using here
    | cons second texts =>
      rw [map_cons, map_cons, intercalate_cons_cons, mem_append, mem_append]
      exact not_or.mpr ⟨not_or.mpr ⟨here, isBetween⟩, ih behind⟩

/-- A text that can stand in quotes as it is. -/
def Plain (text : String) : Prop :=
  Unbroken text ∧ '"' ∉ text.toList ∧ '\\' ∉ text.toList

instance {text : String} : Decidable (Plain text) :=
  inferInstanceAs (Decidable (_ ∧ _))

theorem unbroken_of_isNamePart {text : String} (named : text.toList.all isNamePart) :
    Unbroken text :=
  fun mem => absurd (all_eq_true.mp named _ mem) (by decide)

@[simp] theorem unbroken_repr (number : Nat) : Unbroken number.repr := by
  refine unbroken_of_isNamePart (all_eq_true.mpr fun char mem => ?_)
  have isDigit := Nat.isDigit_of_mem_toDigits (by decide) (by decide) (Nat.toList_repr ▸ mem)
  simp [isNamePart, Char.isAlphanum, isDigit]

theorem isNamePart_identifier (name : String) : (identifier name).toList.all isNamePart := by
  refine all_eq_true.mpr fun char mem => ?_
  rw [identifier, String.toList_map] at mem
  obtain ⟨old, -, rfl⟩ := mem_map.mp mem
  split
  · rename_i alphanumeric
    simp [isNamePart, alphanumeric]
  · decide

@[simp] theorem unbroken_identifier (name : String) : Unbroken (identifier name) :=
  unbroken_of_isNamePart (isNamePart_identifier name)

theorem isNamePart_node (id : ProcessId) : (node id).toList.all isNamePart := by
  rw [node, String.toList_append, all_append, isNamePart_identifier]
  decide

@[simp] theorem unbroken_node (id : ProcessId) : Unbroken (node id) :=
  unbroken_of_isNamePart (isNamePart_node id)

theorem leader?_node {behind rest : List Char} (id : ProcessId)
    (stops : rest.head?.all (!isNamePart ·)) :
    leader? behind ((node id).toList ++ rest) =
      if behind.isPrefixOf rest then some ((node id).toList, rest.drop behind.length)
      else none := by
  have all := all_eq_true.mp (isNamePart_node id)
  have stopped : rest.dropWhile isNamePart = rest ∧ rest.takeWhile isNamePart = [] := by
    cases rest <;> simp_all
  have begins : ['p', '_'].isPrefixOf ((node id).toList ++ rest) := by simp [node]
  simp [leader?, begins, dropWhile_append_of_pos all, takeWhile_append_of_pos all, stopped]

/-- The texts of a process that are quoted. -/
def quotes (id : ProcessId) (process : Process) : List String :=
  id ::
    process.kind.functions.map (·.name) ++
    (match process.kind with | .delay initial => [initial] | _ => [])

variable {id : ProcessId} {proc : Process}

theorem unbroken_label (plain : ∀ text ∈ quotes id proc, Plain text) :
    Unbroken (label id proc.kind) := by
  have unbroken (text : String) (mem : text ∈ quotes id proc) : Unbroken text := (plain text mem).1
  have names (fns : List Func)
      (applied : proc.kind.functions = fns) : Unbroken (functionNames fns) :=
    unbroken_intercalate (by decide) fun text mem => unbroken text (by simp_all [quotes])
  cases kind : proc.kind <;> simp_all +decide [label, quotes, Kind.functions]

theorem shows_nodeLine (plain : ∀ text ∈ quotes id proc, Plain text) :
    Shows blocks [nodeLine id proc] [(blocks, (node id).toList)] [] := by
  have unbroken : Unbroken (nodeLine id proc) := by
    have look : Unbroken (appearance proc.kind).1 ∧ Unbroken (appearance proc.kind).2 := by
      cases proc.kind <;> simp +decide [appearance]
    simp +decide [nodeLine, unbroken_label plain, look]
  obtain ⟨rest, isLine⟩ : ∃ rest,
      (nodeLine id proc).toList = (node id).toList ++ (" [".toList ++ rest) :=
    ⟨_, by simp [nodeLine]; rfl⟩
  have shown : Shows blocks _ _ _ :=
    shows_line unbroken (by simp [isLine, node])
      (by simp [nodeLine, getLast?_append, getLast?_cons])
  rw [isLine, nodeOf?, edgeOf?, leader?_node id (by simp; decide),
    leader?_node id (by simp; decide)] at shown
  simpa using shown

theorem shows_joined {dst : List Char} (unbroken : Unbroken line)
    (ends : line.toList.getLast? = some ';')
    (isLine : line.toList = (node id).toList ++ (" -> ".toList ++ dst)) :
    Shows blocks [line] []
    (if ['p', '_'].isPrefixOf dst then [((node id).toList, dst.takeWhile isNamePart)] else []) := by
  have shown : Shows blocks _ _ _ := shows_line unbroken (by simp [isLine, node]) (by simp [ends])
  rw [isLine, nodeOf?, edgeOf?, leader?_node id (by simp; decide),
    leader?_node id (by simp; decide)] at shown
  split <;> simp_all

theorem shows_arrowLine {arrow : Arrow} (tail : ∀ name ∈ arrow.tail, Plain name)
    (head : ∀ name ∈ arrow.head, Plain name) :
    Shows blocks [arrowLine arrow] []
      [((node arrow.source).toList, (node arrow.target).toList)] := by
  have marks : Unbroken (", ".intercalate (attributes arrow)) :=
      unbroken_intercalate (by decide) fun text mem => by
    simp only [attributes, mem_append, Option.mem_toList, Option.map_eq_some_iff] at mem
    rcases mem with ((⟨name, isName, rfl⟩ | ⟨name, isName, rfl⟩) | style) | style
    · simp +decide [(tail name isName).1]
    · simp +decide [(head name isName).1]
    all_goals
      split at style
      · exact mem_singleton.mp style ▸ by decide
      · cases style
  -- What stands behind the target is a list of attributes or nothing.
  obtain ⟨suffix, unbroken, isLine, stops⟩ : ∃ suffix, Unbroken suffix ∧
      arrowLine arrow = node arrow.source ++ " -> " ++ node arrow.target ++ suffix ++ ";" ∧
      (suffix ++ ";").toList.takeWhile isNamePart = [] := by
    by_cases none : (attributes arrow).isEmpty
    · exact ⟨"", by decide, by simp [arrowLine, none], by decide⟩
    · exact ⟨" [" ++ ", ".intercalate (attributes arrow) ++ "]",
        by simp +decide [marks], by simp [arrowLine, none], by simp +decide⟩
  have shown : Shows blocks [arrowLine arrow] _ _ :=
    shows_joined (by simp +decide [isLine, unbroken]) (by simp [isLine, getLast?_cons])
      (show _ = (node arrow.source).toList ++
        (" -> ".toList ++ ((node arrow.target).toList ++ (suffix ++ ";").toList)) by simp [isLine])
  rw [takeWhile_append_of_pos (all_eq_true.mp (isNamePart_node arrow.target)), stops] at shown
  simpa [node] using shown

theorem shows_settings : Shows blocks settings [] [] :=
  (shows_aside (by decide) (by decide) (by decide)).append
    ((shows_aside (by decide) (by decide) (by decide)).append
      (shows_aside (by decide) (by decide) (by decide)))

theorem shows_header (plain : Plain id) :
    Shows blocks ["label=\"" ++ id ++ "\";", "style=rounded;", "color=gray50;"] [] [] := by
  have named : Shows blocks ["label=\"" ++ id ++ "\";"] [] [] :=
    shows_aside (by simp +decide [plain.1]) (by simp) (by simp [getLast?_cons])
  exact named.append
    ((shows_aside (by decide) (by decide) (by decide)).append
      (shows_aside (by decide) (by decide) (by decide)))

variable {term : Terminal}

theorem shows_inputLines (plain : Plain term.label) : Shows blocks (inputLines term) [] [] :=
  (shows_aside (by simp +decide [plain.1]) (by simp) (by simp [getLast?_cons])).append
    (shows_aside (by simp +decide) (by simp) (by simp [getLast?_cons]))

theorem shows_outputLines (plain : Plain term.label) : Shows blocks (outputLines term) [] [] := by
  have joined : Shows blocks
      [node term.owner ++ " -> " ++ ("output_" ++ toString term.index) ++ ";"] _ _ :=
    shows_joined (by simp +decide) (by simp [getLast?_cons]) (by simp; rfl)
  exact (shows_aside (by simp +decide [plain.1]) (by simp) (by simp [getLast?_cons])).append
    (by simpa using joined)

/-- The lines that open the blocks around the processes inside some composites. -/
def surround (path : List ProcessId) : List (List Char) :=
  "digraph syncflow \x7b".toList :: path.map fun id =>
    ("subgraph cluster_" ++ identifier id ++ " \x7b").toList

theorem shows_render {drawing : Drawing} (noFault : drawing.fault = none)
    (figures : Shows (surround []) (figuresLines drawing.figures) nodes [])
    (arrows : ∀ arrow ∈ drawing.arrows, (∀ name ∈ arrow.tail, Plain name) ∧
      ∀ name ∈ arrow.head, Plain name)
    (terminals : ∀ term ∈ drawing.inputs ++ drawing.outputs, Plain term.label) :
    nodesOf (statements (render drawing)) = nodes ∧
    edgesOf (statements (render drawing)) =
      drawing.arrows.map fun arrow => ((node arrow.source).toList, (node arrow.target).toList) := by
  have links : Shows (surround []) (drawing.arrows.map arrowLine) []
      (drawing.arrows.map fun arrow =>
        ((node arrow.source).toList, (node arrow.target).toList)) := by
    have each : Shows (surround []) _ _ _ :=
      shows_flatMap fun arrow mem => shows_arrowLine (arrows arrow mem).1 (arrows arrow mem).2
    rwa [flatMap_eq_nil_iff.mpr fun _ _ => rfl, ← map_eq_flatMap, ← map_eq_flatMap] at each
  have blank : Shows (surround []) [""] [] [] := shows_aside (by decide) (by decide) (by decide)
  have bdry : Shows (surround []) (if drawing.bounded then ["", "    // Graph boundary"] else []) []
      [] := by
    split
    · exact blank.append
        (shows_aside (by decide) (by decide) (by decide) : Shows _ ["// Graph boundary"]
          [] []).indent
    · exact shows_nil
  have ends : Shows (surround [])
      (drawing.inputs.flatMap inputLines ++ drawing.outputs.flatMap outputLines) [] [] := by
    have inputs : Shows (surround []) _ _ _ :=
      shows_flatMap fun term mem => shows_inputLines (terminals term (mem_append_left _ mem))
    have outs : Shows (surround []) _ _ _ :=
      shows_flatMap fun term mem => shows_outputLines (terminals term (mem_append_right _ mem))
    simpa [flatMap_eq_nil_iff.mpr fun _ _ => rfl] using inputs.append outs
  have all := ((((((shows_settings.indent).append blank).append figures.indent).append blank).append
    links.indent).append bdry).append ends.indent
  simp only [nil_append, append_nil] at all
  exact (Shows.block (by decide) (by decide) (by decide) all).statements_eq
    (by simp [render, noFault])

end Dataflow.Dot
