import Mathlib.Algebra.GroupWithZero.Nat
import ServerCore.RootedForest

/-!
# The priority tree of an HTTP/2 connection

`ngx_http_v2_set_dependency`, `ngx_http_v2_node_children_update`,
`ngx_http_v2_get_node_by_id`, `ngx_http_v2_get_closed_node` and the parts of
`ngx_http_v2_state_priority`, `ngx_http_v2_state_headers` and
`ngx_http_v2_close_stream` that work on the nodes. A queue is the list of the
nodes whose links are in it; to remove a link takes the node out of the queue in
which it is. `rel_weight`, a floating point number that is only computed from
other relative weights, is left out. A NULL or missing pointer that is followed,
and a recursion that does not end, is `none`.
-/

namespace ServerCore.NginxHttpV2Priority

open RootedForest Function

abbrev Ptr := Nat

/-- `ngx_http_v2_node_t`; a parent that is `unset` is NULL, and `root` is
`NGX_HTTP_V2_ROOT`. -/
structure Node where
  id : Nat
  parent : Link Ptr
  rank : Nat
  weight : Nat
  hasStream : Bool

/-- The parts of the connection: `children none` is `h2c->dependencies`. -/
structure PriorityTree where
  nodes : Ptr → Node
  streamsIndex : Nat → List Ptr
  children : Option Ptr → List Ptr
  closed : List Ptr
  closedNodes : Nat
  lastSid : Nat
  streamsIndexMask : Nat

/-- A node after `ngx_pcalloc` or `ngx_memzero`. -/
def zeroNode : Node := ⟨0, .unset, 0, 0, false⟩

def insertAfter (here new : Ptr) : List Ptr → List Ptr
  | [] => []
  | p :: rest => if p = here then p :: new :: rest else p :: insertAfter here new rest

namespace PriorityTree

section

variable (t : PriorityTree)

def setNode (p : Ptr) (node : Node) : PriorityTree := { t with nodes := update t.nodes p node }

def setRank (p : Ptr) (rank : Nat) : PriorityTree := t.setNode p { t.nodes p with rank := rank }

def setParent (p : Ptr) (parent : Link Ptr) : PriorityTree := t.setNode p { t.nodes p with parent := parent }

/-- `ngx_queue_remove(&node->queue)`. -/
def removeQueue (p : Ptr) : PriorityTree := { t with children := fun owner => (t.children owner).erase p }

def setChildren (owner : Option Ptr) (list : List Ptr) : PriorityTree :=
  { t with children := update t.children owner list }

def index (sid : Nat) : Nat := (sid / 2) &&& t.streamsIndexMask

def members : List Ptr := (List.range (t.streamsIndexMask + 1)).flatMap t.streamsIndex

/-- `ngx_http_v2_get_node_by_id` without allocation. -/
def getNodeById (sid : Nat) : Option Ptr :=
  (t.streamsIndex (t.index sid)).find? fun p => (t.nodes p).id = sid

end

def nodeChildrenUpdate : Nat → PriorityTree → Ptr → Option PriorityTree
  | 0, _, _ => none
  | fuel + 1, t, p =>
    (t.children (some p)).foldlM
      (fun t child => nodeChildrenUpdate fuel (t.setRank child ((t.nodes p).rank + 1)) child) t

/-- The recursion is no deeper than there are nodes. -/
def childrenUpdate (t : PriorityTree) (p : Ptr) : Option PriorityTree :=
    nodeChildrenUpdate (t.members.length + 1) t p

/-- The children of a node that is taken out get its parent and a part of its weight. -/
def inheritChild (t : PriorityTree) (p : Ptr) (weight : Nat) (child : Ptr) : PriorityTree :=
  let share := (t.nodes p).weight * (t.nodes child).weight / weight
  t.setNode child { t.nodes child with
    parent := (t.nodes p).parent
    weight := if share = 0 then 1 else share }

def parentQueue (t : PriorityTree) : Link Ptr → Option (Option Ptr × Nat)
  | .unset => none
  | .root => some (none, 0)
  | .node parent => some (some parent, (t.nodes parent).rank)

def getClosedNode (t : PriorityTree) : Option (PriorityTree × Ptr) :=
  match t.closed with
  | [] => none
  | p :: closed =>
    let bucket := t.index (t.nodes p).id
    if p ∈ t.streamsIndex bucket then do
      let t := { t with
        closedNodes := (t.closedNodes + 255) % 256
        closed := closed
        streamsIndex := update t.streamsIndex bucket ((t.streamsIndex bucket).erase p) }
      let t := t.removeQueue p
      let list := t.children (some p)
      let weight := (list.map fun child => (t.nodes child).weight).sum
      let t := list.foldl (fun t child => t.inheritChild p weight child) t
      let (owner, rank) ← t.parentQueue (t.nodes p).parent
      let t ← (t.setRank p rank).childrenUpdate p
      let t := t.setChildren owner (t.children owner ++ t.children (some p))
      some (t.setNode p zeroNode, p)
    else none

/-- `ngx_http_v2_get_node_by_id` with allocation; `fresh` is the address of a node
that is allocated. -/
def allocNodeById (t : PriorityTree) (sid : Nat) (fresh : Ptr) : Option (PriorityTree × Ptr) :=
  match t.getNodeById sid with
  | some p => some (t, p)
  | none => do
    let (t, p) ← (if t.closedNodes < 32 then some (t.setNode fresh zeroNode, fresh) else t.getClosedNode)
    let t := t.setNode p { t.nodes p with id := sid }
    let t := t.setChildren (some p) []
    some ({ t with
      streamsIndex := update t.streamsIndex (t.index sid) (p :: t.streamsIndex (t.index sid)) }, p)

/-- `ngx_queue_remove(&node->reuse)` and `ngx_queue_insert_tail(&h2c->closed, ...)`. -/
def requeueClosed (t : PriorityTree) (p : Ptr) : PriorityTree := { t with closed := t.closed.erase p ++ [p] }

/-- The loop of `ngx_http_v2_set_dependency`: is the node above its new parent? -/
def climbs (t : PriorityTree) (p : Ptr) : Nat → Link Ptr → Option Bool
  | 0, _ => none
  | _ + 1, .unset => none
  | _ + 1, .root => some false
  | fuel + 1, .node next =>
    if (t.nodes next).rank ≥ (t.nodes p).rank then
      if next = p then some true else t.climbs p fuel (t.nodes next).parent
    else some false

/-- The new parent takes the place of the node that was above it. -/
def liftParent (t : PriorityTree) (p parent : Ptr) (exclusive : Bool) : Option PriorityTree := do
  let t := t.removeQueue parent
  let t := { t with children := fun owner => insertAfter p parent (t.children owner) }
  let t := t.setParent parent (t.nodes p).parent
  let (_, rank) ← t.parentQueue (t.nodes p).parent
  let t := t.setRank parent (rank + 1)
  if exclusive then some t else t.childrenUpdate parent

/-- All nodes of a queue become children of the node. -/
def adoptAll (t : PriorityTree) (p : Ptr) (owner : Option Ptr) : PriorityTree :=
  let list := t.children owner
  let t := list.foldl (fun t child => t.setParent child (.node p)) t
  let t := t.setChildren (some p) (t.children (some p) ++ list)
  t.setChildren owner []

/-- The end of `ngx_http_v2_set_dependency`. -/
def attach (t : PriorityTree) (p : Ptr) (parent : Link Ptr) (owner : Option Ptr)
    (exclusive : Bool) : Option PriorityTree :=
  let t := if exclusive then t.adoptAll p owner else t
  let t := if (t.nodes p).parent ≠ .unset then t.removeQueue p else t
  let t := t.setChildren owner (t.children owner ++ [p])
  let t := t.setParent p parent
  t.childrenUpdate p

def setDependency (t : PriorityTree) (p : Ptr) (depend : Nat) (exclusive : Bool) : Option PriorityTree :=
  match if depend ≠ 0 then t.getNodeById depend else none with
  | none => (t.setRank p 1).attach p .root none (exclusive && decide (depend = 0))
  | some parent => do
    let lifts ← (if (t.nodes p).parent ≠ .unset then
        t.climbs p (t.members.length + 1) (t.nodes parent).parent
      else some false)
    let t ← (if lifts then t.liftParent p parent exclusive else some t)
    let t := t.setRank p ((t.nodes parent).rank + 1)
    let t := if (t.nodes parent).hasStream then t else t.requeueClosed parent
    t.attach p (.node parent) (some parent) exclusive

/-- `ngx_http_v2_state_priority`; `weight` is the byte of the frame. -/
def statePriority (t : PriorityTree) (sid depend : Nat) (excl : Bool) (weight : UInt8)
    (fresh : Ptr) : Option PriorityTree :=
  if sid = 0 then none
  else if depend = sid then some t
  else do
    let (t, p) ← t.allocNodeById sid fresh
    let t := t.setNode p { t.nodes p with weight := weight.toNat + 1 }
    let t :=
      if (t.nodes p).hasStream then t
      else if (t.nodes p).parent = .unset then
        { t with closedNodes := (t.closedNodes + 1) % 256, closed := t.closed ++ [p] }
      else t.requeueClosed p
    t.setDependency p depend excl

structure Priority where
  depend : Nat
  excl : Bool
  weight : UInt8

/-- `ngx_http_v2_state_headers`; `refused` where there are too many streams or the
settings are not acknowledged. -/
def stateHeaders (t : PriorityTree) (sid : Nat) (priority : Option Priority) (refused : Bool)
    (fresh : Ptr) : Option PriorityTree :=
  if sid % 2 = 0 ∨ sid ≤ t.lastSid then none
  else
    let t := { t with lastSid := sid }
    if refused ∨ priority.any (fun priority => priority.depend = sid) then some t
    else do
      let (t, p) ← t.allocNodeById sid fresh
      let t :=
        if (t.nodes p).parent ≠ .unset then
          { t with closedNodes := (t.closedNodes + 255) % 256, closed := t.closed.erase p }
        else t
      let t := t.setNode p { t.nodes p with hasStream := true }
      match priority with
      | some priority =>
        let t := t.setNode p { t.nodes p with weight := priority.weight.toNat + 1 }
        t.setDependency p priority.depend priority.excl
      | none =>
        if (t.nodes p).parent = .unset then
          (t.setNode p { t.nodes p with weight := 16 }).setDependency p 0 false
        else some t

/-- `ngx_http_v2_close_stream` for the stream of a node. -/
def closeStream (t : PriorityTree) (p : Ptr) : PriorityTree :=
  let t := t.setNode p { t.nodes p with hasStream := false }
  { t with closed := t.closed ++ [p], closedNodes := (t.closedNodes + 1) % 256 }

end PriorityTree

end ServerCore.NginxHttpV2Priority
