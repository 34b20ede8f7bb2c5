import RootHelper.Posix.Paths
import RootHelper.Control.Systems

/-!
The linked queue with one producer and several consumers. Each thread moves by single reads and writes
of `nextNode`, `done` and the size of the queue; the last consumer that counts itself on a node deletes
the node.
-/

set_option autoImplicit false

namespace RootHelper
open Posix Control

/-- `wait` is `SPMC_QUEUE_WAIT`. -/
inductive NextNode where
  | wait
  | null
  | ptr (address : Nat)
  deriving DecidableEq, Repr

structure Spmc_Queue_Node where
  data : Str
  nextNode : NextNode
  done : Nat
  deriving DecidableEq, Repr

def SPMC_MAX_QUEUE_SIZE : Int := 20

/-- Where `ConsumerTask::run` is; `reread` is what `++n` has given. -/
inductive ConsumerPlace where
  | processItem
  | count
  | poll (reread : Nat)
  | advance (reread : Nat)
  /-- For the last node it returns afterwards. -/
  | delete (oldNode : Nat) (last : Bool)
  | uncount (last : Bool)
  | returned
  deriving DecidableEq, Repr

/-- With the chunks that have been processed. -/
structure ConsumerTask where
  curNode : Nat
  place : ConsumerPlace
  processed : List Str
  deriving DecidableEq, Repr

inductive ProducerPlace where
  | wait
  | link
  | count
  | finished
  deriving DecidableEq, Repr

/-- `curNext` is the node whose `nextNode` is written next, `chunks` is what is still to come. -/
structure SpmcProducer where
  place : ProducerPlace
  curNext : Nat
  chunks : List Str
  deriving DecidableEq, Repr

/-- An address is the number of a node; what has been deleted is no longer there. -/
structure SpmcQueue where
  heap : List (Option Spmc_Queue_Node)
  size : Int
  producer : SpmcProducer
  consumers : List ConsumerTask
  totalConsumers : Nat
  /-- The deletions so far. -/
  deleted : List Nat
  /-- A node was used after its deletion, or what is no node. -/
  fault : Bool
  deriving DecidableEq, Repr

inductive SpmcThread where
  | producer
  | consumer (i : Nat)
  deriving DecidableEq, Repr

namespace SpmcQueue

def start (totalConsumers : Nat) (chunk : Str) (chunks : List Str) : SpmcQueue where
  heap := [some ⟨chunk,.wait,0⟩]
  size := 1
  producer := ⟨.wait,0,chunks⟩
  consumers := List.replicate totalConsumers ⟨0,.processItem,[]⟩
  totalConsumers := totalConsumers
  deleted := []
  fault := false

variable (q : SpmcQueue)

def node (address : Nat) : Option Spmc_Queue_Node := (q.heap[address]?).join

def access (address : Nat) (f : Spmc_Queue_Node → SpmcQueue) : SpmcQueue :=
  match q.node address with
  | none => { q with fault := true }
  | some n => f n

def setNode (address : Nat) (n : Option Spmc_Queue_Node) : SpmcQueue :=
  { q with heap := q.heap.set address n }

def setConsumer (i : Nat) (c : ConsumerTask) : SpmcQueue := { q with consumers := q.consumers.set i c }

def produce : SpmcQueue :=
  let p := q.producer
  match p.place with
  | .wait =>
    match p.chunks with
    | [] => q.access p.curNext fun n =>
        { q.setNode p.curNext (some { n with nextNode := .null }) with
          producer := { p with place := .finished } }
    | chunk :: chunks =>
      if SPMC_MAX_QUEUE_SIZE ≤ q.size then q
      else { q with heap := q.heap ++ [some ⟨chunk,.wait,0⟩], producer := ⟨.link,p.curNext,chunks⟩ }
  | .link => q.access p.curNext fun n =>
      let rootNode := q.heap.length - 1
      { q.setNode p.curNext (some { n with nextNode := .ptr rootNode }) with
        producer := ⟨.count,rootNode,p.chunks⟩ }
  | .count => { q with size := q.size + 1, producer := { p with place := .wait } }
  | .finished => q

/-- `done` has eight bits. -/
def consume (i : Nat) (c : ConsumerTask) : SpmcQueue :=
  match c.place with
  | .processItem => q.access c.curNode fun n =>
      q.setConsumer i { c with place := .count, processed := c.processed ++ [n.data] }
  | .count => q.access c.curNode fun n =>
      let reread := (n.done + 1) % 256
      (q.setNode c.curNode (some { n with done := reread })).setConsumer i
        { c with place := .poll reread }
  | .poll reread => q.access c.curNode fun n =>
      match n.nextNode with
      | .wait => q
      | .null => q.setConsumer i { c with place :=
          if reread = q.totalConsumers then .delete c.curNode true else .returned }
      | .ptr _ => q.setConsumer i { c with place := .advance reread }
  | .advance reread => q.access c.curNode fun n =>
      match n.nextNode with
      | .ptr nextNode => q.setConsumer i { c with
          curNode := nextNode
          place := if reread = q.totalConsumers then .delete c.curNode false else .processItem }
      | _ => { q with fault := true }
  | .delete oldNode last => q.access oldNode fun _ =>
      { (q.setNode oldNode none).setConsumer i { c with place := .uncount last } with
        deleted := q.deleted ++ [oldNode] }
  | .uncount last =>
      { q.setConsumer i { c with place := if last then .returned else .processItem } with
        size := q.size - 1 }
  | .returned => q

def step (thread : SpmcThread) : SpmcQueue :=
  if q.fault then q
  else match thread with
    | .producer => q.produce
    | .consumer i => (q.consumers[i]?).elim q (q.consume i)

theorem step_producer (hsafe : q.fault = false) : q.step .producer = q.produce := by
  simp [step,hsafe]

theorem step_consumer (hsafe : q.fault = false) {i : Nat} {c : ConsumerTask}
    (hc : q.consumers[i]? = some c) : q.step (.consumer i) = q.consume i c := by
  simp [step,hsafe,hc]

theorem step_nobody {i : Nat} (hc : q.consumers[i]? = none) : q.step (.consumer i) = q := by
  simp [step,hc]

end SpmcQueue

namespace ConsumerTask

def counted (c : ConsumerTask) : Nat :=
  match c.place with
  | .processItem | .count | .delete _ false | .uncount false => c.curNode
  | _ => c.curNode + 1

def passed (c : ConsumerTask) : Nat :=
  match c.place with
  | .processItem | .delete _ false | .uncount false => c.curNode
  | _ => c.curNode + 1

/-- It has counted itself on the node and is still to read the node's `nextNode`. -/
def reads (c : ConsumerTask) (address : Nat) : Bool :=
  match c.place with
  | .poll _ | .advance _ => c.curNode = address
  | _ => false

end ConsumerTask

namespace SpmcQueue

/-- No consumer deletes a node whose `nextNode` another one is still to read. -/
def Vacates (q : SpmcQueue) : SpmcThread → Prop
  | .producer => True
  | .consumer i => ∀ c ∈ q.consumers[i]?, ∀ oldNode last, c.place = .delete oldNode last →
      ∀ d ∈ q.consumers, d.reads oldNode = false

/-- No field of a deleted node is used, no node deleted twice, and each consumer has processed the first
chunks, in their order; all of them once it has returned. -/
structure Sound (chunks : List Str) (q : SpmcQueue) : Prop where
  safe : q.fault = false
  once : q.deleted.Nodup
  order : ∀ c ∈ q.consumers, c.processed <+: chunks
  whole : ∀ c ∈ q.consumers, c.place = .returned → c.processed = chunks

/-- The consumers have returned, and all nodes are deleted. -/
structure Complete (chunks : List Str) (q : SpmcQueue) : Prop extends Sound chunks q where
  finished : q.producer.place = .finished
  returned : ∀ c ∈ q.consumers, c.place = .returned
  cleared : ∀ address, address ∈ q.deleted ↔ address < chunks.length

end SpmcQueue

end RootHelper
