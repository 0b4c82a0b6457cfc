import JiuwenSpec.Base.BreadthFirst
import JiuwenSpec.Base.Dict
import JiuwenSpec.Pregel.Loop

/-!
# Graphs and their compilation

A graph has nodes, of which some wait for all their predecessors, edges from one node or
from a list of nodes, and routers that choose targets when they run. Compilation gives each
waiting node a barrier; predecessors that it takes to be exclusive go into one OR-group.
Source: `core/graph/graph.py`, `core/graph/pregel/builder.py`, `core/graph/pregel/router.py`,
`core/workflow/components/flow/branch_router.py`.
-/

namespace JiuwenSpec.Graph

open Base

inductive Source where
  | node (id : String)
  | list (ids : List String)
  deriving DecidableEq

def Source.ids : Source → List String
  | node id => [id]
  | list ids => ids

/-- `Branch`: a condition, of which only the targets that it may return matter. -/
structure Branch where
  mayReturn : List String → Prop

/-- `PregelGraph`; a set is a list read without repetitions. -/
structure PregelGraph where
  edges : List (Source × String) := []
  waits : List String := []
  nodes : List String := []
  branches : Dict String (Dict String Branch) := Dict.empty
  branchTargets : Dict String (List String) := Dict.empty

namespace PregelGraph

/-- `add_node`; nothing where it raises. -/
def addNode (g : PregelGraph) (nodeId : String) (waitForAll : Bool) : Option PregelGraph :=
  if nodeId = "" ∨ nodeId ∈ g.nodes then none
  else some { g with
    nodes := g.nodes ++ [nodeId]
    waits := if waitForAll then g.waits ++ [nodeId] else g.waits }

/-- `add_edge`; nothing where it raises. -/
def addEdge (g : PregelGraph) (source : Source) (target : String) : Option PregelGraph :=
  if source.ids = [] ∨ "" ∈ source.ids ∨ target = "" then none
  else some { g with edges := g.edges ++ [(source, target)] }

def startNode (g : PregelGraph) (nodeId : String) : Option PregelGraph :=
  g.addEdge (.list [START]) nodeId

def endNode (g : PregelGraph) (nodeId : String) : Option PregelGraph :=
  g.addEdge (.list [nodeId]) END

/-- `add_conditional_edges`, with the name of the router; nothing where it raises. -/
def addConditionalEdges (g : PregelGraph) (source name : String) (branch : Branch) :
    Option PregelGraph :=
  if source = "" then none
  else some { g with
    branches := g.branches.set source
      (((g.branches.get? source).getD Dict.empty).set name branch) }

def registerBranchTargets (g : PregelGraph) (branchNodeId : String) (targets : List String) :
    PregelGraph :=
  if branchNodeId ≠ "" ∧ 1 < targets.dedup.length then
    { g with branchTargets := g.branchTargets.set branchNodeId targets }
  else g

/-- `add_conditional_connection` with a `BranchRouter`, given the targets of its branches:
`all_targets` are registered. -/
def addBranchRouter (g : PregelGraph) (source : String) (branches : List (List String)) :
    Option PregelGraph :=
  (g.addConditionalEdges source "BranchRouter" ⟨(· ∈ branches)⟩).map fun g =>
    g.registerBranchTargets source branches.flatten

def singleEdges (g : PregelGraph) : List (String × String) :=
  g.edges.filterMap fun e => match e.1 with
    | .node s => some (s, e.2)
    | .list _ => none

def forwardReachable (g : PregelGraph) (start : String) : List String :=
  reachable g.singleEdges start

/-- `pred_info[p]`: the branches with a target from which the node is reached, each with
that target. -/
def owners (g : PregelGraph) (p : String) : List (String × String) :=
  g.branchTargets.entries.flatMap fun e =>
    (e.2.dedup.filter fun target => p ∈ g.forwardReachable target).map fun target =>
      (e.1, target)

/-- `_build_branch_parent`. -/
def branchParent (g : PregelGraph) : Dict String String :=
  (g.branchTargets.entries.flatMap fun e => e.2.map fun target => (target, e.1)).foldl
    (fun parent e =>
      if e.1 ∈ g.branchTargets.keys ∨ e.1 ∈ g.branches.keys then parent.set e.1 e.2 else parent)
    Dict.empty

/-- `_branch_root` with a number of turns of its loop. -/
def branchRootWithin (parent : Dict String String) : Nat → String → Option String
  | 0, _ => none
  | turns + 1, b =>
    match parent.get? b with
    | none => some b
    | some b' => branchRootWithin parent turns b'

/-- `_branch_root`; nothing where its loop does not end, since it then passes a branch
twice. -/
def branchRoot (g : PregelGraph) (b : String) : Option String :=
  branchRootWithin g.branchParent (g.branchParent.entries.length + 1) b

/-- `d[k] |= s`. -/
def addTo (d : Dict String (List String)) (k : String) (s : List String) :
    Dict String (List String) := d.set k ((d.get? k).getD [] ++ s)

def branchGroups (g : PregelGraph) (predecessors : List String) : Dict String (List String) :=
  predecessors.foldl (fun groups p =>
    match g.owners p with
    | [(b, _)] => addTo groups b [p]
    | _ => groups) Dict.empty

def standalone (g : PregelGraph) (predecessors : List String) : List (List String) :=
  (predecessors.filter fun p => (g.owners p).length ≠ 1).map fun p => [p]

/-- `root_merged`; nothing where some root is not found. -/
def rootMerged (g : PregelGraph) (groups : Dict String (List String)) :
    Option (Dict String (List String)) :=
  groups.entries.foldlM (fun merged e =>
    (g.branchRoot e.1).map fun root => addTo merged root e.2) Dict.empty

/-- `_resolve_barrier_groups`; nothing where it does not return. The order of the groups is
one of those that iterating over sets may give. -/
def resolveBarrierGroups (g : PregelGraph) (sourceList : List (List String)) :
    Option (List (List String)) :=
  if g.branchTargets.entries = [] ∨ sourceList = [] then some sourceList
  else
    let predecessors := sourceList.flatten.dedup
    (g.rootMerged (g.branchGroups predecessors)).map fun merged =>
      let result := (merged.values.filter (· ≠ [])) ++ g.standalone predecessors
      if result = [] then sourceList else result

end PregelGraph

inductive Router where
  | static (targets : List String)
  | barrier (targets : List String)
  | conditional (name : String)

/-- What each router returns: by its node and its name. -/
abbrev Outcomes := String → String → List String

def Router.dispatch (outcomes : Outcomes) (sourceNode : String) : Router → List Message
  | static targets => targets.map (Message.trigger sourceNode)
  | barrier targets => targets.map (Message.barrier sourceNode)
  | conditional name => (outcomes sourceNode name).map (Message.trigger sourceNode)

/-- `PregelBuilder`, the functions of the nodes apart. -/
structure PregelBuilder where
  nodes : Dict String (List Router)
  channels : List Channel

namespace PregelBuilder

def addNode (b : PregelBuilder) (name : String) : PregelBuilder where
  nodes := b.nodes.set name []
  channels := b.channels ++ [triggerChannel name]

/-- `PregelBuilder()`. -/
def new : PregelBuilder :=
  ((⟨Dict.empty, []⟩ : PregelBuilder).addNode START).addNode END

/-- `self.nodes[name].routers.append(router)`; nothing where there is no such node. -/
def addRouter (b : PregelBuilder) (name : String) (router : Router) : Option PregelBuilder :=
  (b.nodes.get? name).map fun routers => { b with nodes := b.nodes.set name (routers ++ [router]) }

/-- `add_edge` from groups of nodes. -/
def addBarrier (b : PregelBuilder) (expectedGroups : List (List String)) (target : String) :
    Option PregelBuilder :=
  let barrier := barrierChannel target expectedGroups
  expectedGroups.flatten.foldlM (fun b s => b.addRouter s (.barrier [barrier.key]))
    { b with channels := b.channels ++ [barrier] }

def addEdge (b : PregelBuilder) (source : Source) (target : String) : Option PregelBuilder :=
  match source with
  | .node s => b.addRouter s (.static [target])
  | .list ids => b.addBarrier (ids.map fun s => [s]) target

/-- `build`. -/
def pregel (b : PregelBuilder) : Pregel where
  nodes := b.nodes.keys

def routers (b : PregelBuilder) (name : String) : List Router := (b.nodes.get? name).getD []

def messages (b : PregelBuilder) (outcomes : Outcomes) (name : String) : List Message :=
  (b.routers name).flatMap (Router.dispatch outcomes name)

end PregelBuilder

namespace PregelGraph

/-- `sources`: the predecessors of each waiting node that has any. -/
def sources (g : PregelGraph) : Dict String (List (List String)) :=
  g.edges.foldl (fun sources e =>
    if e.2 ∈ g.waits then
      sources.set e.2 ((sources.get? e.2).getD [] ++ e.1.ids.map fun s => [s])
    else sources) Dict.empty

def barrierGroups (g : PregelGraph) : Option (List (String × List (List String))) :=
  g.sources.entries.mapM fun e => (g.resolveBarrierGroups e.2).map fun groups => (e.1, groups)

/-- `_compile`; nothing where it raises or does not return. -/
def compile (g : PregelGraph) : Option PregelBuilder := do
  let groups ← g.barrierGroups
  let b ← groups.foldlM (fun b e => b.addBarrier e.2 e.1)
    (g.nodes.foldl PregelBuilder.addNode PregelBuilder.new)
  let b ← (g.edges.filter fun e => e.2 ∉ g.waits).foldlM (fun b e => b.addEdge e.1 e.2) b
  g.branches.entries.foldlM (fun b e =>
    e.2.keys.foldlM (fun b name => b.addRouter e.1 (.conditional name)) b) b

end PregelGraph

end JiuwenSpec.Graph
