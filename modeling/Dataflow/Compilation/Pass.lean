/-! The passes of a compilation, and which of them a result needs. -/

namespace Dataflow

/-- A pass over the network. -/
inductive Pass where
  /-- Inlines all composites. -/
  | flatten
  /-- Looks for everything that makes a network unfit for compilation. -/
  | validate
  /-- Removes zips and unzips with one in-port and one out-port. -/
  | removeRedundant
  /-- Turns combs with one in-port into maps. -/
  | combToMap
  /-- Replaces the chains of data-parallel sections by one process each. -/
  | coalesceDataParallel
  /-- Cuts data-parallel sections into segments of one process on each branch. -/
  | splitSegments
  /-- Replaces data-parallel sections by parallel maps. -/
  | fuseSections
  /-- Merges parallel maps that follow each other. -/
  | mergeParallelMaps
  /-- Finds a schedule. -/
  | schedule
deriving DecidableEq

/-- How data-parallel sections are brought to one process on each branch. -/
inductive Strategy where
  | coalesce
  | split
deriving DecidableEq

/-- What a compilation can be asked to do differently. -/
structure Options where
  /-- How data-parallel sections are brought to one process on each branch. -/
  strategy : Strategy := .coalesce
  /-- Whether data-parallel sections are transformed at all. -/
  dataParallel : Bool := true
deriving DecidableEq

/-- The pass after which the network does not change any more. -/
def Options.lastTransformation (options : Options) : Pass :=
  if options.dataParallel then .mergeParallelMaps else .combToMap

/-- The pass that brings data-parallel sections to one process on each branch. -/
def Options.reduction (options : Options) : Pass :=
  match options.strategy with
  | .coalesce => .coalesceDataParallel
  | .split => .splitSegments

namespace Pass

def all : List Pass :=
  [.flatten, .validate, .removeRedundant, .combToMap, .coalesceDataParallel, .splitSegments,
    .fuseSections, .mergeParallelMaps, .schedule]

def name : Pass → String
  | .flatten => "flatten"
  | .validate => "validate"
  | .removeRedundant => "remove_redundant"
  | .combToMap => "comb_to_map"
  | .coalesceDataParallel => "coalesce_data_parallel"
  | .splitSegments => "split_segments"
  | .fuseSections => "fuse_unzip_map_zip"
  | .mergeParallelMaps => "coalesce_parallel_maps"
  | .schedule => "schedule"

def ofName? (name : String) : Option Pass :=
  all.find? (·.name = name)

/-- What holds of the network after a pass, in words. -/
def guarantee : Pass → String
  | .flatten => "no composite processes remain"
  | .validate => "port arity matches kind, boundary ports free, every cycle has a delay"
  | .removeRedundant => "no zip/unzip with a single in- and out-port"
  | .combToMap => "no single-input comb"
  | .coalesceDataParallel | .splitSegments => "every data-parallel section has chain length 1"
  | .fuseSections => "no data-parallel section remains"
  | .mergeParallelMaps => "no two compatible parallel maps are directly chained"
  | .schedule => "reachable processes appear once, producers precede non-delay consumers"

/-- The passes that have to come directly before a pass. -/
def dependencies (options : Options) : Pass → List Pass
  | .flatten => []
  | .validate => [.flatten]
  | .removeRedundant => [.validate]
  | .combToMap => [.removeRedundant]
  | .coalesceDataParallel | .splitSegments => [.combToMap]
  | .fuseSections => [options.reduction]
  | .mergeParallelMaps => [.fuseSections]
  | .schedule => [options.lastTransformation]

/-- Adds a pass to an order, behind everything it depends on. -/
def require (options : Options) : Nat → List Pass → Pass → List Pass
  | 0, order, _ => order
  | depth + 1, order, pass =>
    if pass ∈ order then order
    else (pass.dependencies options).foldl (require options depth) order ++ [pass]

/-- The passes that lead to a pass, in the order of their execution; no dependency is deeper than
there are passes. -/
def required (options : Options) (terminal : Pass) : List Pass :=
  require options all.length [] terminal

end Pass

end Dataflow
