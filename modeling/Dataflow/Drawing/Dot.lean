import Dataflow.Drawing.Basic

/-! Drawings in the DOT language. -/

namespace Dataflow.Dot

/-- A name with an underscore for each character that an identifier may not have. -/
def identifier (name : String) : String :=
  name.map fun char => if char.isAlphanum then char else '_'

/-- The node that stands for a process. -/
def node (id : ProcessId) : String :=
  "p_" ++ identifier id

/-- The names of functions in the order of application. -/
def functionNames (functions : List Func) : String :=
  " . ".intercalate (functions.map (·.name))

/-- The label of a process: its name, and below it what it applies or starts with. -/
def label (id : ProcessId) : Kind Composite → String
  | .map function | .comb function => id ++ "\\n" ++ function.name
  | .coalescedMap functions => id ++ "\\n" ++ functionNames functions
  | .parallelMap branches functions =>
    id ++ "\\n" ++ functionNames functions ++ " x" ++ toString branches.toNat
  | .delay initial => id ++ "\\ninit " ++ initial
  | _ => id

/-- The shape and the colour of a process. -/
def appearance : Kind Composite → String × String
  | .map _ => ("box", "lightblue")
  | .coalescedMap _ => ("box3d", "lightblue")
  | .parallelMap .. => ("box3d", "palegreen")
  | .comb _ => ("box", "lightcyan")
  | .unzip => ("invtrapezium", "lightyellow")
  | .zip => ("trapezium", "lightyellow")
  | .delay _ => ("square", "lightsalmon")
  | .fanout => ("diamond", "white")
  | .inport | .outport => ("circle", "gray90")
  | .composite _ => ("folder", "gray80")

/-- The line that declares the node of a process. -/
def nodeLine (id : ProcessId) (process : Process) : String :=
  let (shape, color) := appearance process.kind
  node id ++ " [shape=" ++ shape ++ ", style=filled, fillcolor=" ++ color ++ ", label=\"" ++
    label id process.kind ++ "\"];"

mutual

/-- The lines of a figure; a composite is followed by a cluster around its inside. -/
def figureLines : Figure → List String
  | .leaf id process => [nodeLine id process]
  | .cluster id process content =>
    let header := ["label=\"" ++ id ++ "\";", "style=rounded;", "color=gray50;"]
    [nodeLine id process, "subgraph cluster_" ++ identifier id ++ " \x7b"] ++
      (header ++ figuresLines content).map ("    " ++ ·) ++ ["\x7d"]

def figuresLines : List Figure → List String
  | [] => []
  | figure :: rest => figureLines figure ++ figuresLines rest

end

def attributes (arrow : Arrow) : List String :=
  (arrow.tail.map fun name => "taillabel=\"" ++ name ++ "\"").toList ++
    (arrow.head.map fun name => "headlabel=\"" ++ name ++ "\"").toList ++
    (if arrow.delayed then ["style=dashed"] else []) ++
    (if arrow.looping then ["style=bold, color=red"] else [])

def arrowLine (arrow : Arrow) : String :=
  let marks := attributes arrow
  let suffix := if marks.isEmpty then "" else " [" ++ ", ".intercalate marks ++ "]"
  node arrow.source ++ " -> " ++ node arrow.target ++ suffix ++ ";"

/-- The lines of an input of the graph. -/
def inputLines (terminal : Terminal) : List String :=
  let name := "input_" ++ toString terminal.index
  [name ++ " [shape=plaintext, label=\"" ++ terminal.label ++ "\"];",
    name ++ " -> " ++ node terminal.owner ++ ";"]

/-- The lines of an output of the graph. -/
def outputLines (terminal : Terminal) : List String :=
  let name := "output_" ++ toString terminal.index
  [name ++ " [shape=plaintext, label=\"" ++ terminal.label ++ "\"];",
    node terminal.owner ++ " -> " ++ name ++ ";"]

/-- The lines that hold for the whole drawing. -/
def settings : List String :=
  ["rankdir=LR;", "node [fontname=\"Helvetica\", fontsize=10];",
    "edge [fontname=\"Helvetica\", fontsize=9];"]

def render (drawing : Drawing) : String :=
  let indent := List.map ("    " ++ · : String → String)
  let fault :=
    (drawing.fault.map fun fault => "// cycle detection failed: " ++ fault.message).toList
  let boundary := if drawing.bounded then ["", "    // Graph boundary"] else []
  let lines := ["digraph syncflow \x7b"] ++ indent settings ++
    [""] ++ indent (figuresLines drawing.figures) ++
    indent fault ++ [""] ++ indent (drawing.arrows.map arrowLine) ++
    boundary ++ indent (drawing.inputs.flatMap inputLines ++ drawing.outputs.flatMap outputLines) ++
    ["\x7d"]
  String.join (lines.map (· ++ "\n"))

end Dataflow.Dot

/-- The drawing of a network in the DOT language. -/
def Dataflow.Network.dot (net : Dataflow.Network) : String :=
  Dataflow.Dot.render net.drawing
