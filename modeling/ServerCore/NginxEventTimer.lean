import ServerCore.NginxRbtree
import Mathlib.Data.Int.DivMod

/-!
# The event timers of nginx

`ngx_event_timer.c` keeps the pending timers in a red-black tree whose keys are the
deadlines, in milliseconds modulo `2 ^ w` for a word of `w` bits. Two of them are
compared by their difference as a signed word. An event is the address of its timer's
node; its two flags are kept beside the tree.
-/

namespace ServerCore.NginxEventTimer

open RedBlackTree NginxRbtree
open NginxRbtree.Rbtree Function

/-- The cast to `ngx_msec_int_t` or `ngx_rbtree_key_int_t`. -/
def ngxMsecInt (w : Nat) (value : Int) : Int := value.bmod (2 ^ w)

def ngxTimerInfinite (w : Nat) : Nat := 2 ^ w - 1

def ngxTimerLazyDelay : Int := 300

def ngxAbs (value : Int) : Int := if 0 ≤ value then value else -value

def ngxRbtreeInsertTimerValue (w : Nat) : Nat → Rbtree → Pointer → Pointer → Option Rbtree
  | 0, _, _, _ => none
  | fuel + 1, tree, temp, node => do
    let new ← tree.load node
    let old ← tree.load temp
    let side := if ngxMsecInt w ((new.key : Int) - old.key) < 0 then Side.left else Side.right
    if old.child side = some tree.sentinel then
      let tree ← tree.store temp (Node.setChild side node)
      tree.store node fun new =>
        { new with
          parent := temp
          left := some tree.sentinel
          right := some tree.sentinel
          color := .red }
    else ngxRbtreeInsertTimerValue w fuel tree (old.child side) node

/-- `ngx_rbtree_insert` where `insert` is the function of the tree that finds the place. -/
def ngxRbtreeInsertBy (insert : Rbtree → Pointer → Pointer → Option Rbtree) (fuel : Nat) (tree : Rbtree)
    (node : Pointer) : Option Rbtree := do
  if tree.root = some tree.sentinel then
    let tree ← tree.store node fun new =>
      { new with
        parent := none
        left := some tree.sentinel
        right := some tree.sentinel
        color := .black }
    some { tree with root := node }
  else
    let tree ← insert tree tree.root node
    insertFixup fuel tree node

theorem insert_by_value (fuel : Nat) (tree : Rbtree) (node : Pointer) :
    tree.ngxRbtreeInsert fuel node = ngxRbtreeInsertBy (ngxRbtreeInsertValue fuel) fuel tree node := rfl

/-- `ngx_event_timer_rbtree` and the flags of the events. -/
structure Timers where
  tree : Rbtree
  timerSet : Address → Bool
  timedout : Address → Bool

def ngxEventTimerInit (sentinel : Address) (memory : Address → Node) (timedout : Address → Bool) :
    Timers where
  tree := ngxRbtreeInit sentinel memory
  timerSet := fun _ => false
  timedout := timedout

/-- `-1` as an unsigned word where no timer is pending. -/
def ngxEventFindTimer (w fuel currentMsec : Nat) (timers : Timers) : Option Nat := do
  if timers.tree.root = some timers.tree.sentinel then some (ngxTimerInfinite w)
  else
    let node ← timers.tree.load (← ngxRbtreeMin fuel timers.tree timers.tree.root)
    let timer := ngxMsecInt w ((node.key : Int) - currentMsec)
    some (if 0 < timer then timer.toNat else 0)

def ngxEventDelTimer (fuel : Nat) (timers : Timers) (ev : Address) : Option Timers := do
  let tree ← timers.tree.ngxRbtreeDelete fuel (some ev)
  some { timers with tree := tree, timerSet := update timers.timerSet ev false }

/-- The end of `ngx_event_add_timer`, which puts the timer into the tree. -/
def setTimer (w fuel : Nat) (timers : Timers) (ev : Address) (key : Nat) : Option Timers := do
  let tree ← timers.tree.store (some ev) fun node => { node with key := key }
  let tree ← ngxRbtreeInsertBy (ngxRbtreeInsertTimerValue w fuel) fuel tree (some ev)
  some { timers with tree := tree, timerSet := update timers.timerSet ev true }

def ngxEventAddTimer (w fuel currentMsec : Nat) (timers : Timers) (ev : Address)
    (timer : Nat) : Option Timers := do
  let key := (currentMsec + timer) % 2 ^ w
  if timers.timerSet ev then
    let diff := ngxMsecInt w ((key : Int) - (timers.tree.memory ev).key)
    if ngxAbs diff < ngxTimerLazyDelay then some timers
    else
      let timers ← ngxEventDelTimer fuel timers ev
      setTimer w fuel timers ev key
  else setTimer w fuel timers ev key

/-- A call that is made by a handler or between two expirations. -/
inductive Call where
  | add (ev : Address) (timer : Nat)
  | del (ev : Address)

/-- A timer that is not set is left alone, as all callers of `ngx_event_del_timer` do. -/
def perform (w fuel currentMsec : Nat) (timers : Timers) : Call → Option Timers
  | .add ev timer => ngxEventAddTimer w fuel currentMsec timers ev timer
  | .del ev => if timers.timerSet ev then ngxEventDelTimer fuel timers ev else some timers

/-- An event whose handler was run, and what the handler found. -/
structure Fired where
  ev : Address
  timers : Timers

/-- The loop of `ngx_event_expire_timers`, of which at most `turns` turns are made. The
handler of each turn makes the calls of the next list. -/
def expireLoop (w fuel currentMsec : Nat) : Nat → Timers → List (List Call) → Option (List Fired × Timers)
  | 0, _, _ => none
  | turns + 1, timers, handlers => do
    if timers.tree.root = some timers.tree.sentinel then some ([], timers)
    else
      let node ← ngxRbtreeMin fuel timers.tree timers.tree.root
      let ev ← node
      if 0 < ngxMsecInt w (((timers.tree.memory ev).key : Int) - currentMsec) then some ([], timers)
      else
        let tree ← timers.tree.ngxRbtreeDelete fuel node
        let timers : Timers :=
          { tree := tree
            timerSet := update timers.timerSet ev false
            timedout := update timers.timedout ev true }
        let after ← (handlers.headD []).foldlM (perform w fuel currentMsec) timers
        let (fired, last) ← expireLoop w fuel currentMsec turns after handlers.tail
        some (⟨ev, timers⟩ :: fired, last)

def ngxEventExpireTimers (w fuel currentMsec : Nat) (timers : Timers) (handlers : List (List Call)) :
    Option (List Fired × Timers) :=
  expireLoop w fuel currentMsec fuel timers handlers

end ServerCore.NginxEventTimer
