import KevinDb.Record

namespace KevinDb

structure RunTreeInput where
  spanId : String
  parentSpanId : Option String
  runId : String
  generatedRunId : String
  startTimeUnixNano : Int
deriving DecidableEq, Repr

structure RunTreeIndexNode where
  spanId : String
  runId : String
  generatedRunId : String
  parentSpanId : Option String
  rootSpanId : String
  rootRunId : String
  depth : Int
  siblingOrder : Int
  subtreeStart : Int
  subtreeEnd : Int
  descendantCount : Int
  unresolvedParent : Bool
  cycleDetected : Bool
deriving DecidableEq, Repr

structure IndexedRunInput where
  run : RunTreeInput
  effectiveParent : Option String
  unresolvedParent : Bool
  cycleDetected : Bool
deriving DecidableEq, Repr

/-- The loop of `parent_creates_cycle`. Every turn adds a span to those seen, and only known
spans have an entry, so the number of runs bounds the turns. -/
def parentWalk (childSpanId : String) (parentBySpan : Table String (Option String)) :
    Nat → List String → Option String → Bool
  | 0, _, _ => false
  | _ + 1, _, none => false
  | fuel + 1, seen, some spanId =>
    if spanId = childSpanId then true
    else if spanId ∈ seen then false
    else parentWalk childSpanId parentBySpan fuel (spanId :: seen) parentBySpan[spanId]?.join

def parentCreatesCycle (childSpanId parentSpanId : String)
    (parentBySpan : Table String (Option String)) : Bool :=
  parentWalk childSpanId parentBySpan (parentBySpan.size + 2) [] (some parentSpanId)

def stableRunId (run : RunTreeInput) : String :=
  if run.runId ≠ "" then run.runId else run.generatedRunId

/-- What the tree walk mutates: the next interval endpoint and the nodes pushed so far. -/
structure TreeWalk where
  nextOrder : Int
  nodes : List RunTreeIndexNode

/-- `visit_tree_node`. The fuel bounds the depth of the recursion. -/
def visitTreeNode (inputsBySpan : Table String IndexedRunInput)
    (childrenByParent : Option String → List String) (rootSpanId rootRunId : String) :
    Nat → String → Int → Int → TreeWalk → TreeWalk × Int
  | 0, _, _, _, walk => (walk, 0)
  | fuel + 1, spanId, depth, siblingOrder, walk =>
    match inputsBySpan[spanId]? with
    | none => (walk, 0)
    | some input =>
      let subtreeStart := walk.nextOrder
      let (below, descendantCount) := (childrenByParent (some spanId)).zipIdx.foldl
        (fun (acc : TreeWalk × Int) (child : String × Nat) =>
          let (next, count) := visitTreeNode inputsBySpan childrenByParent rootSpanId rootRunId
            fuel child.1 (depth + 1) child.2 acc.1
          (next, acc.2 + (1 + count)))
        ({ walk with nextOrder := walk.nextOrder + 1 }, 0)
      let node : RunTreeIndexNode :=
        { spanId := input.run.spanId
          runId := input.run.runId
          generatedRunId := input.run.generatedRunId
          parentSpanId := input.effectiveParent
          rootSpanId, rootRunId, depth, siblingOrder, subtreeStart
          subtreeEnd := below.nextOrder
          descendantCount
          unresolvedParent := input.unresolvedParent
          cycleDetected := input.cycleDetected }
      (⟨below.nextOrder + 1, below.nodes ++ [node]⟩, descendantCount)

/-- The order in which the runs of a trace are visited: by start time, then by span id. -/
def RunTreeInput.before (left right : RunTreeInput) : Prop :=
  left.startTimeUnixNano < right.startTimeUnixNano ∨
    (left.startTimeUnixNano = right.startTimeUnixNano ∧ left.spanId ≤ right.spanId)

instance : DecidableRel RunTreeInput.before := fun left right =>
  inferInstanceAs (Decidable (left.startTimeUnixNano < right.startTimeUnixNano ∨ _))

/-- A run with the parent the tree keeps for it: a known span that is not on a cycle with it. -/
def indexRunInput (parentBySpan : Table String (Option String)) (run : RunTreeInput) :
    IndexedRunInput where
  run := run
  effectiveParent := run.parentSpanId.filter fun parent =>
    decide (parent ∈ parentBySpan) && decide (parent ≠ run.spanId) &&
      !parentCreatesCycle run.spanId parent parentBySpan
  unresolvedParent := run.parentSpanId.any fun parent => !decide (parent ∈ parentBySpan)
  cycleDetected := run.parentSpanId.any fun parent =>
    decide (parent ∈ parentBySpan) && parentCreatesCycle run.spanId parent parentBySpan

def buildTraceTreeIndex (runs : List RunTreeInput) : List RunTreeIndexNode :=
  let runs := runs.insertionSort RunTreeInput.before
  let parentBySpan : Table String (Option String) :=
    runs.foldl (fun table run => table.insert run.spanId run.parentSpanId) ∅
  let inputs := runs.map (indexRunInput parentBySpan)
  let inputsBySpan : Table String IndexedRunInput :=
    inputs.foldl (fun table input => table.insert input.run.spanId input) ∅
  let childrenByParent (parent : Option String) : List String :=
    (inputs.filter fun input => input.effectiveParent = parent).map fun input => input.run.spanId
  let walk := (childrenByParent none).zipIdx.foldl
    (fun (walk : TreeWalk) (root : String × Nat) =>
      let rootRunId := match inputsBySpan[root.1]? with
        | some input => stableRunId input.run
        | none => root.1
      (visitTreeNode inputsBySpan childrenByParent root.1 rootRunId
        (runs.length + 1) root.1 0 root.2 walk).1)
    ⟨0, []⟩
  walk.nodes.insertionSort fun left right => left.subtreeStart ≤ right.subtreeStart

end KevinDb
