import RootHelper.SpmcQueue

/-!
What every run of the queue keeps as long as no consumer deletes a node that another one is still to
read: who counts on which node, who is to delete it, and what is left to be read.
-/

set_option autoImplicit false

namespace RootHelper
open Posix Control

section Replacing

variable {α : Type} {p : α → Bool} {l : List α} {i : Nat} {a b : α}

theorem countP_set_add (h : l[i]? = some a) :
    (l.set i b).countP p + (if p a then 1 else 0) = l.countP p + if p b then 1 else 0 := by
  induction l generalizing i with
  | nil => simp at h
  | cons x l ih =>
    cases i with
    | zero =>
      obtain rfl : x = a := by simpa using h
      rw [List.set_cons_zero,List.countP_cons,List.countP_cons]
      omega
    | succ i =>
      rw [List.set_cons_succ,List.countP_cons,List.countP_cons]
      have hi := ih (i := i) (by simpa using h)
      omega

theorem countP_set_same (h : l[i]? = some a) (hp : p b = p a) : (l.set i b).countP p = l.countP p := by
  have hadd := countP_set_add (p := p) (b := b) h
  rw [hp] at hadd
  omega

end Replacing

/-! ### The invariant -/

namespace ConsumerTask

variable (c : ConsumerTask)

/-- It is the one that is to delete the node. -/
def owes (totalConsumers address : Nat) : Bool :=
  match c.place with
  | .poll reread | .advance reread => reread = totalConsumers ∧ c.curNode = address
  | .delete oldNode _ => oldNode = address
  | _ => false

/-- It goes through the pointer to its node. -/
def visits : Bool :=
  match c.place with
  | .processItem | .count | .poll _ | .advance _ => true
  | _ => false

def uncounts : Bool :=
  match c.place with
  | .uncount _ => true
  | _ => false

end ConsumerTask

namespace SpmcQueue

/-- What `nextNode` is of a node that is there. -/
def nextOf (q : SpmcQueue) (address : Nat) : NextNode :=
  if address < q.producer.curNext then .ptr (address + 1)
  else if address = q.producer.curNext ∧ q.producer.place = .finished then .null
  else .wait

/-- How many nodes the producer has not counted yet. -/
def ahead (q : SpmcQueue) : Nat :=
  match q.producer.place with
  | .link | .count => 1
  | _ => 0

def Ended (q : SpmcQueue) (address : Nat) : Prop :=
  q.producer.place = .finished ∧ address = q.producer.curNext

/-- Where a consumer can be. -/
structure Stands (chunks : List Str) (q : SpmcQueue) (c : ConsumerTask) : Prop where
  reached : c.curNode ≤ q.producer.curNext
  processed : c.processed = chunks.take c.passed
  there : c.reads c.curNode = true → c.curNode ∉ q.deleted
  advances : ∀ reread, c.place = .advance reread → c.curNode < q.producer.curNext
  deletes : ∀ oldNode last, c.place = .delete oldNode last →
    if last then c.curNode = oldNode ∧ q.Ended oldNode else c.curNode = oldNode + 1
  leaves : c.place = .uncount true ∨ c.place = .returned → q.Ended c.curNode

/-- Where the producer can be. -/
structure Produces (chunks : List Str) (q : SpmcQueue) : Prop where
  rest : q.producer.chunks = chunks.drop q.heap.length
  length : q.heap.length ≤ chunks.length
  linked : q.producer.curNext + (if q.producer.place = .link then 2 else 1) = q.heap.length
  ended : q.producer.place = .finished → q.producer.chunks = []

structure Inv (chunks : List Str) (q : SpmcQueue) : Prop where
  safe : q.fault = false
  number : q.consumers.length = q.totalConsumers
  pos : 0 < q.totalConsumers
  fits : q.totalConsumers < 256
  producer : Produces chunks q
  stands : ∀ c ∈ q.consumers, Stands chunks q c
  nodes : ∀ address n, q.node address = some n →
    chunks[address]? = some n.data ∧ n.nextNode = q.nextOf address ∧
      n.done = q.consumers.countP fun c => address < c.counted
  gone : ∀ address, address < q.heap.length → (q.node address = none ↔ address ∈ q.deleted)
  /-- Who counts itself last is to delete the node, and does so once. -/
  duty : ∀ address, q.deleted.count address + q.consumers.countP (·.owes q.totalConsumers address) =
    if (q.consumers.countP fun c => address < c.counted) = q.totalConsumers then 1 else 0
  size : q.size + q.deleted.length + q.ahead = q.heap.length + q.consumers.countP ConsumerTask.uncounts

variable {chunks : List Str} {q : SpmcQueue} {i : Nat} {c d : ConsumerTask}

theorem mem_of_consumer (hc : q.consumers[i]? = some c) : c ∈ q.consumers := List.mem_of_getElem? hc

theorem Inv.uncounted (h : Inv chunks q) {address : Nat} (hc : c ∈ q.consumers)
    (hcount : c.counted ≤ address) : address ∉ q.deleted := by
  intro hmem
  have hpos : 0 < q.deleted.count address := List.count_pos_iff.mpr hmem
  have hduty := h.duty address
  split at hduty
  · rename_i hall
    rw [← h.number,List.countP_eq_length] at hall
    have hlt := of_decide_eq_true (hall c hc)
    omega
  · omega

theorem Inv.owed (h : Inv chunks q) {address : Nat} (hc : c ∈ q.consumers)
    (howes : c.owes q.totalConsumers address = true) :
    address ∉ q.deleted ∧ (q.consumers.countP fun c => address < c.counted) = q.totalConsumers := by
  have hpos : 0 < q.consumers.countP (·.owes q.totalConsumers address) :=
    List.countP_pos_iff.mpr ⟨c,hc,howes⟩
  have hduty := h.duty address
  split at hduty
  · rename_i hall
    refine ⟨fun hmem => ?_,hall⟩
    have hcount : 0 < q.deleted.count address := List.count_pos_iff.mpr hmem
    omega
  · omega

theorem Inv.exists_node (h : Inv chunks q) {address : Nat} (hle : address ≤ q.producer.curNext)
    (hnot : address ∉ q.deleted) : ∃ n, q.node address = some n := by
  have hlt : address < q.heap.length := by
    have hlinked := h.producer.linked
    split at hlinked <;> omega
  cases hn : q.node address with
  | none => exact absurd ((h.gone address hlt).mp hn) hnot
  | some n => exact ⟨n,rfl⟩

theorem Inv.exists_current (h : Inv chunks q) (hc : c ∈ q.consumers) (hvisits : c.visits) :
    ∃ n, q.node c.curNode = some n := by
  have hstands := h.stands c hc
  have hthere := hstands.there
  refine h.exists_node hstands.reached ?_
  obtain ⟨cur,place,processed⟩ := c
  cases place with
  | processItem => exact h.uncounted hc (Nat.le_refl _)
  | count => exact h.uncounted hc (Nat.le_refl _)
  | poll reread => exact hthere (by simp [ConsumerTask.reads])
  | advance reread => exact hthere (by simp [ConsumerTask.reads])
  | delete oldNode last => simp [ConsumerTask.visits] at hvisits
  | uncount last => simp [ConsumerTask.visits] at hvisits
  | returned => simp [ConsumerTask.visits] at hvisits

theorem Stands.mono {q' : SpmcQueue} (h : Stands chunks q c)
    (hnext : q.producer.curNext ≤ q'.producer.curNext) (hended : ∀ address, q.Ended address → q'.Ended address)
    (hdeleted : c.reads c.curNode = true → c.curNode ∉ q'.deleted) : Stands chunks q' c where
  reached := Nat.le_trans h.reached hnext
  processed := h.processed
  there := hdeleted
  advances reread hplace := Nat.lt_of_lt_of_le (h.advances reread hplace) hnext
  deletes oldNode last hplace := by
    have hdeletes := h.deletes oldNode last hplace
    cases last with
    | false => exact hdeletes
    | true => exact ⟨hdeletes.1,hended _ hdeletes.2⟩
  leaves hplace := hended _ (h.leaves hplace)

/-- A consumer moves on and leaves the nodes and its counts as they are. -/
theorem Inv.moveSized (h : Inv chunks q) (hc : q.consumers[i]? = some c) {size : Int}
    (hcounted : d.counted = c.counted)
    (howes : ∀ address, d.owes q.totalConsumers address = c.owes q.totalConsumers address)
    (hsize : size + (if c.uncounts then 1 else 0) = q.size + if d.uncounts then 1 else 0)
    (hstands : Stands chunks q d) : Inv chunks { q.setConsumer i d with size := size } := by
  have hcounts : ∀ address, ((q.consumers.set i d).countP fun c => address < c.counted) =
      q.consumers.countP fun c => address < c.counted := fun address =>
    countP_set_same hc (by rw [hcounted])
  have hduties : ∀ address, (q.consumers.set i d).countP (·.owes q.totalConsumers address) =
      q.consumers.countP (·.owes q.totalConsumers address) := fun address =>
    countP_set_same hc (howes address)
  refine ⟨h.safe,by simpa [setConsumer] using h.number,h.pos,h.fits,⟨h.producer.rest,
    h.producer.length,h.producer.linked,h.producer.ended⟩,fun e he => ?_,fun address n hn => ?_,
    h.gone,fun address => ?_,?_⟩
  · have hold : Stands chunks q e := by
      rcases List.mem_or_eq_of_mem_set he with he | rfl
      · exact h.stands e he
      · exact hstands
    exact hold.mono (Nat.le_refl _) (fun _ hended => hended) hold.there
  · obtain ⟨hdata,hnext,hdone⟩ := h.nodes address n hn
    exact ⟨hdata,hnext,hdone.trans (hcounts address).symm⟩
  · have hduty := h.duty address
    simp only [setConsumer,hcounts,hduties]
    exact hduty
  · have hsizes := countP_set_add (p := ConsumerTask.uncounts) (b := d) hc
    have hold := h.size
    change size + q.deleted.length + q.ahead = q.heap.length + (q.consumers.set i d).countP ConsumerTask.uncounts
    split_ifs at hsize hsizes <;> omega

theorem Inv.move (h : Inv chunks q) (hc : q.consumers[i]? = some c) (hcounted : d.counted = c.counted)
    (howes : ∀ address, d.owes q.totalConsumers address = c.owes q.totalConsumers address)
    (huncounts : d.uncounts = c.uncounts) (hstands : Stands chunks q d) :
    Inv chunks (q.setConsumer i d) :=
  h.moveSized hc hcounted howes (by rw [huncounts]) hstands

/-! ### Steps of a consumer -/

theorem access_some {address : Nat} {n : Spmc_Queue_Node} {f : Spmc_Queue_Node → SpmcQueue}
    (hn : q.node address = some n) : q.access address f = f n := by
  rw [access,hn]

theorem node_setNode {address : Nat} (hlt : address < q.heap.length) (m : Option Spmc_Queue_Node)
    (other : Nat) : (q.setNode address m).node other = if address = other then m else q.node other := by
  unfold node setNode
  rw [List.getElem?_set]
  split
  · rename_i heq
    subst heq
    simp
  · rfl

theorem lt_of_node {address : Nat} {n : Spmc_Queue_Node} (hn : q.node address = some n) :
    address < q.heap.length := by
  unfold node at hn
  by_contra hle
  rw [List.getElem?_eq_none (Nat.le_of_not_lt hle)] at hn
  simp at hn

theorem Inv.processItem (h : Inv chunks q) {cur : Nat} {processed : List Str}
    (hc : q.consumers[i]? = some ⟨cur,.processItem,processed⟩) :
    Inv chunks (q.consume i ⟨cur,.processItem,processed⟩) := by
  have hmem := mem_of_consumer hc
  have hstands := h.stands _ hmem
  obtain ⟨n,hn⟩ := h.exists_current hmem rfl
  obtain ⟨hdata,_⟩ := h.nodes cur n hn
  rw [consume,access_some hn]
  refine h.move hc rfl (fun _ => rfl) rfl ⟨hstands.reached,?_,by simp [ConsumerTask.reads],by simp,by simp,
    by simp⟩
  have hprocessed : processed = chunks.take cur := hstands.processed
  change processed ++ [n.data] = chunks.take (cur + 1)
  rw [hprocessed,List.take_add_one,hdata]
  rfl

theorem Inv.poll (h : Inv chunks q) {cur reread : Nat} {processed : List Str}
    (hc : q.consumers[i]? = some ⟨cur,.poll reread,processed⟩) :
    Inv chunks (q.consume i ⟨cur,.poll reread,processed⟩) := by
  have hmem := mem_of_consumer hc
  have hstands := h.stands _ hmem
  have hthere : cur ∉ q.deleted := hstands.there (by simp [ConsumerTask.reads])
  obtain ⟨n,hn⟩ := h.exists_current hmem rfl
  obtain ⟨_,hnext,_⟩ := h.nodes cur n hn
  have hprocessed : processed = chunks.take (cur + 1) := hstands.processed
  simp only [consume,access_some hn]
  cases hnode : n.nextNode with
  | wait => exact h
  | null =>
    have hended : q.Ended cur := by
      rw [hnode,nextOf] at hnext
      split_ifs at hnext with hlt hend
      exact ⟨hend.2,hend.1⟩
    by_cases hlast : reread = q.totalConsumers
    · simp only [if_pos hlast]
      refine h.move hc rfl (fun address => ?_) rfl ⟨hstands.reached,hprocessed,by simp [ConsumerTask.reads],
        by simp,?_,by simp⟩
      · simp [ConsumerTask.owes,hlast]
      · rintro oldNode last hplace
        obtain ⟨rfl,rfl⟩ := ConsumerPlace.delete.inj hplace
        exact ⟨rfl,hended⟩
    · simp only [if_neg hlast]
      refine h.move hc rfl (fun address => ?_) rfl ⟨hstands.reached,hprocessed,by simp [ConsumerTask.reads],
        by simp,by simp,fun _ => hended⟩
      simp [ConsumerTask.owes,hlast]
  | ptr next =>
    have hlt : cur < q.producer.curNext := by
      rw [hnode,nextOf] at hnext
      split_ifs at hnext with hlt
      exact hlt
    exact h.move hc rfl (fun _ => rfl) rfl ⟨hstands.reached,hprocessed,fun _ => hthere,
      fun _ _ => hlt,by simp,by simp⟩

theorem Inv.advance (h : Inv chunks q) {cur reread : Nat} {processed : List Str}
    (hc : q.consumers[i]? = some ⟨cur,.advance reread,processed⟩) :
    Inv chunks (q.consume i ⟨cur,.advance reread,processed⟩) := by
  have hmem := mem_of_consumer hc
  have hstands := h.stands _ hmem
  have hlt : cur < q.producer.curNext := hstands.advances reread rfl
  obtain ⟨n,hn⟩ := h.exists_current hmem rfl
  obtain ⟨_,hnext,_⟩ := h.nodes cur n hn
  have hprocessed : processed = chunks.take (cur + 1) := hstands.processed
  rw [nextOf,if_pos hlt] at hnext
  simp only [consume,access_some hn,hnext]
  by_cases hlast : reread = q.totalConsumers
  · simp only [if_pos hlast]
    refine h.move hc rfl (fun address => ?_) rfl ⟨hlt,hprocessed,by simp [ConsumerTask.reads],by simp,?_,
      by simp⟩
    · simp [ConsumerTask.owes,hlast]
    · rintro oldNode last hplace
      obtain ⟨rfl,rfl⟩ := ConsumerPlace.delete.inj hplace
      rfl
  · simp only [if_neg hlast]
    refine h.move hc rfl (fun address => ?_) rfl ⟨hlt,hprocessed,by simp [ConsumerTask.reads],by simp,by simp,
      by simp⟩
    simp [ConsumerTask.owes,hlast]

theorem Inv.count (h : Inv chunks q) {cur : Nat} {processed : List Str}
    (hc : q.consumers[i]? = some ⟨cur,.count,processed⟩) :
    Inv chunks (q.consume i ⟨cur,.count,processed⟩) := by
  have hmem := mem_of_consumer hc
  have hstands := h.stands _ hmem
  have hthere : cur ∉ q.deleted := h.uncounted hmem (Nat.le_refl _)
  obtain ⟨n,hn⟩ := h.exists_current hmem rfl
  obtain ⟨hdata,hnext,hdone⟩ := h.nodes cur n hn
  have hprocessed : processed = chunks.take (cur + 1) := hstands.processed
  have hbefore : n.done < q.totalConsumers := by
    rw [hdone,← h.number]
    refine Nat.lt_of_le_of_ne List.countP_le_length fun hall => ?_
    have hcur := List.countP_eq_length.mp hall _ hmem
    simp [ConsumerTask.counted] at hcur
  have hfits := h.fits
  have hreread : (n.done + 1) % 256 = n.done + 1 := Nat.mod_eq_of_lt (by omega)
  have hcounts : ∀ address, ((q.consumers.set i ⟨cur,.poll (n.done + 1),processed⟩).countP
      fun c => address < c.counted) =
      (q.consumers.countP fun c => address < c.counted) + if address = cur then 1 else 0 := by
    intro address
    have hadd := countP_set_add (p := fun c : ConsumerTask => address < c.counted)
      (b := ⟨cur,.poll (n.done + 1),processed⟩) hc
    have hold : (⟨cur,.count,processed⟩ : ConsumerTask).counted = cur := rfl
    have hnew : (⟨cur,.poll (n.done + 1),processed⟩ : ConsumerTask).counted = cur + 1 := rfl
    simp only [hold,hnew,decide_eq_true_eq] at hadd
    split_ifs at hadd ⊢ <;> omega
  have hduties : ∀ address, (q.consumers.set i ⟨cur,.poll (n.done + 1),processed⟩).countP
      (·.owes q.totalConsumers address) = q.consumers.countP (·.owes q.totalConsumers address) +
        if n.done + 1 = q.totalConsumers ∧ cur = address then 1 else 0 := by
    intro address
    have hadd := countP_set_add (p := fun c : ConsumerTask => c.owes q.totalConsumers address)
      (b := ⟨cur,.poll (n.done + 1),processed⟩) hc
    simpa [ConsumerTask.owes] using hadd
  have hsizes : (q.consumers.set i ⟨cur,.poll (n.done + 1),processed⟩).countP (·.uncounts) =
      q.consumers.countP (·.uncounts) := countP_set_same hc rfl
  have hnode := node_setNode (lt_of_node hn) (some { n with done := n.done + 1 })
  simp only [consume,access_some hn,hreread]
  refine ⟨h.safe,by simpa [setConsumer,setNode] using h.number,h.pos,h.fits,?_,fun e he => ?_,
    fun address m hm => ?_,fun address hlt => ?_,fun address => ?_,?_⟩
  · have hproducer := h.producer
    exact ⟨by simpa [setConsumer,setNode] using hproducer.rest,
      by simpa [setConsumer,setNode] using hproducer.length,
      hproducer.linked.trans List.length_set.symm,hproducer.ended⟩
  · rcases List.mem_or_eq_of_mem_set he with he | rfl
    · have hold := h.stands e he
      exact hold.mono (Nat.le_refl _) (fun _ hended => hended) hold.there
    · exact ⟨hstands.reached,hprocessed,fun _ => hthere,by simp,by simp,by simp⟩
  · change (q.setNode cur _).node address = some m at hm
    rw [hnode] at hm
    split at hm
    · rename_i heq
      subst heq
      obtain rfl := Option.some.inj hm
      refine ⟨hdata,hnext,?_⟩
      have hcur := hcounts cur
      rw [if_pos rfl] at hcur
      exact (congrArg (· + 1) hdone).trans hcur.symm
    · rename_i hne
      obtain ⟨hdata',hnext',hdone'⟩ := h.nodes address m hm
      refine ⟨hdata',hnext',?_⟩
      have hother := hcounts address
      rw [if_neg fun heq => hne heq.symm] at hother
      exact hdone'.trans hother.symm
  · change (q.setNode cur _).node address = none ↔ address ∈ q.deleted
    rw [hnode]
    have hlt' : address < q.heap.length := by simpa [setConsumer,setNode] using hlt
    split
    · rename_i heq
      subst heq
      simp [hthere]
    · exact h.gone address hlt'
  · have hduty := h.duty address
    have hcur : address = cur → (q.consumers.countP fun c => address < c.counted) = n.done := by
      rintro rfl
      exact hdone.symm
    change q.deleted.count address + List.countP _ _ = if List.countP _ _ = _ then 1 else 0
    simp only [setConsumer,setNode,hcounts,hduties]
    by_cases heq : address = cur
    · rw [hcur heq] at hduty ⊢
      rw [if_neg (by omega)] at hduty
      simp only [heq,if_true,and_true]
      subst heq
      omega
    · rw [if_neg heq,if_neg fun h => heq h.2.symm]
      simpa using hduty
  · have hsize := h.size
    simp only [setConsumer,setNode,hsizes,List.length_set]
    exact hsize

theorem Inv.uncount (h : Inv chunks q) {cur : Nat} {last : Bool} {processed : List Str}
    (hc : q.consumers[i]? = some ⟨cur,.uncount last,processed⟩) :
    Inv chunks (q.consume i ⟨cur,.uncount last,processed⟩) := by
  have hstands := h.stands _ (mem_of_consumer hc)
  have hsize : q.size - 1 + 1 = q.size + 0 := by omega
  cases last with
  | false =>
    exact h.moveSized hc rfl (fun _ => rfl) hsize ⟨hstands.reached,hstands.processed,
      by simp [ConsumerTask.reads],by simp,by simp,by simp⟩
  | true =>
    exact h.moveSized hc rfl (fun _ => rfl) hsize ⟨hstands.reached,hstands.processed,
      by simp [ConsumerTask.reads],by simp,by simp,fun _ => hstands.leaves (.inl rfl)⟩

theorem Inv.exists_old (h : Inv chunks q) {oldNode : Nat} {last : Bool} (hc : c ∈ q.consumers)
    (hplace : c.place = .delete oldNode last) : ∃ n, q.node oldNode = some n := by
  have hstands := h.stands c hc
  have hdeletes := hstands.deletes oldNode last hplace
  have hreached := hstands.reached
  have howes : c.owes q.totalConsumers oldNode = true := by simp [ConsumerTask.owes,hplace]
  refine h.exists_node ?_ (h.owed hc howes).1
  cases last with
  | false =>
    have hcur : c.curNode = oldNode + 1 := hdeletes
    omega
  | true => exact hdeletes.1 ▸ hreached

theorem Inv.delete (h : Inv chunks q) {cur oldNode : Nat} {last : Bool} {processed : List Str}
    (hc : q.consumers[i]? = some ⟨cur,.delete oldNode last,processed⟩)
    (hvacated : ∀ d ∈ q.consumers, d.reads oldNode = false) :
    Inv chunks (q.consume i ⟨cur,.delete oldNode last,processed⟩) := by
  have hmem := mem_of_consumer hc
  have hstands := h.stands _ hmem
  have hdeletes := hstands.deletes oldNode last rfl
  have hreached := hstands.reached
  have howes : (⟨cur,.delete oldNode last,processed⟩ : ConsumerTask).owes q.totalConsumers oldNode = true := by
    simp [ConsumerTask.owes]
  obtain ⟨hthere,hall⟩ := h.owed hmem howes
  obtain ⟨n,hn⟩ := h.exists_old hmem rfl
  have hcounted : (⟨cur,.uncount last,processed⟩ : ConsumerTask).counted =
      (⟨cur,.delete oldNode last,processed⟩ : ConsumerTask).counted := by
    cases last <;> rfl
  have hpassed : (⟨cur,.uncount last,processed⟩ : ConsumerTask).passed =
      (⟨cur,.delete oldNode last,processed⟩ : ConsumerTask).passed := by
    cases last <;> rfl
  have hcounts : ∀ address, ((q.consumers.set i ⟨cur,.uncount last,processed⟩).countP
      fun c => address < c.counted) = q.consumers.countP fun c => address < c.counted := fun address =>
    countP_set_same hc (by rw [hcounted])
  have hnode := node_setNode (lt_of_node hn) none
  simp only [consume,access_some hn]
  refine ⟨h.safe,by simpa [setConsumer,setNode] using h.number,h.pos,h.fits,?_,fun e he => ?_,
    fun address m hm => ?_,fun address hlt => ?_,fun address => ?_,?_⟩
  · have hproducer := h.producer
    exact ⟨by simpa [setConsumer,setNode] using hproducer.rest,
      by simpa [setConsumer,setNode] using hproducer.length,
      hproducer.linked.trans List.length_set.symm,hproducer.ended⟩
  · rcases List.mem_or_eq_of_mem_set he with he | rfl
    · have hold := h.stands e he
      refine hold.mono (Nat.le_refl _) (fun _ hended => hended) fun hreads => ?_
      simp only [List.mem_append,List.mem_singleton,not_or]
      refine ⟨hold.there hreads,fun heq => ?_⟩
      rw [heq,hvacated e he] at hreads
      simp at hreads
    · refine ⟨hreached,hstands.processed.trans (by rw [hpassed]),by simp [ConsumerTask.reads],by simp,
        by simp,fun hplace => ?_⟩
      have hlast : last = true := by simpa using hplace
      subst hlast
      exact hdeletes.1 ▸ hdeletes.2
  · change (q.setNode oldNode none).node address = some m at hm
    rw [hnode] at hm
    split at hm
    · simp at hm
    · obtain ⟨hdata,hnext,hdone⟩ := h.nodes address m hm
      exact ⟨hdata,hnext,hdone.trans (hcounts address).symm⟩
  · change (q.setNode oldNode none).node address = none ↔ address ∈ q.deleted ++ [oldNode]
    rw [hnode]
    have hlt' : address < q.heap.length := by simpa [setConsumer,setNode] using hlt
    split
    · rename_i heq
      simp [heq]
    · rename_i hne
      rw [h.gone address hlt']
      simp [Ne.symm hne]
  · have hduty := h.duty address
    have hduties := countP_set_add (p := fun c : ConsumerTask => c.owes q.totalConsumers address)
      (b := ⟨cur,.uncount last,processed⟩) hc
    have hold : (⟨cur,.delete oldNode last,processed⟩ : ConsumerTask).owes q.totalConsumers address =
      decide (oldNode = address) := rfl
    have hnew : (⟨cur,.uncount last,processed⟩ : ConsumerTask).owes q.totalConsumers address = false := rfl
    change (q.deleted ++ [oldNode]).count address + List.countP _ _ = if List.countP _ _ = _ then 1 else 0
    simp only [setConsumer,setNode,hcounts,List.count_append,hold,hnew,
      decide_eq_true_eq,Bool.false_eq_true,if_false] at hduties ⊢
    rw [← hduty]
    by_cases heq : oldNode = address
    · subst heq
      rw [if_pos rfl] at hduties
      rw [List.count_singleton_self]
      omega
    · rw [if_neg heq] at hduties
      rw [List.count_singleton,if_neg (by simpa using heq)]
      omega
  · have hsizes := countP_set_add (p := ConsumerTask.uncounts) (b := ⟨cur,.uncount last,processed⟩) hc
    have hold : (⟨cur,.delete oldNode last,processed⟩ : ConsumerTask).uncounts = false := rfl
    have hnew : (⟨cur,.uncount last,processed⟩ : ConsumerTask).uncounts = true := rfl
    have hsize := h.size
    change q.size + (q.deleted ++ [oldNode]).length + q.ahead = (q.heap.set oldNode none).length +
      (q.consumers.set i ⟨cur,.uncount last,processed⟩).countP ConsumerTask.uncounts
    rw [List.length_append,List.length_set]
    simp only [hold,hnew,Bool.false_eq_true,if_false,if_true,List.length_singleton] at hsizes ⊢
    omega

/-- No step of a consumer that leaves a node only when it is no longer read does any harm. -/
theorem Inv.consume (h : Inv chunks q) (hc : q.consumers[i]? = some c)
    (hvacates : q.Vacates (.consumer i)) : Inv chunks (q.consume i c) := by
  obtain ⟨cur,place,processed⟩ := c
  cases place with
  | processItem => exact h.processItem hc
  | count => exact h.count hc
  | poll reread => exact h.poll hc
  | advance reread => exact h.advance hc
  | delete oldNode last => exact h.delete hc (hvacates _ hc oldNode last rfl)
  | uncount last => exact h.uncount hc
  | returned => exact h

/-! ### Steps of the producer -/

theorem Stands.counted_le (h : Stands chunks q c) : c.counted ≤ q.producer.curNext + 1 := by
  have hreached := h.reached
  unfold ConsumerTask.counted
  split <;> omega

theorem Inv.deleted_counted (h : Inv chunks q) {address : Nat} (hdeleted : address ∈ q.deleted)
    (hc : c ∈ q.consumers) : address < c.counted := by
  by_contra hcount
  exact h.uncounted hc (Nat.le_of_not_lt hcount) hdeleted

theorem Inv.exists_consumer (h : Inv chunks q) : ∃ c, c ∈ q.consumers :=
  List.exists_mem_of_length_pos (h.number ▸ h.pos)

theorem Inv.deleted_le (h : Inv chunks q) {address : Nat} (hdeleted : address ∈ q.deleted) :
    address ≤ q.producer.curNext := by
  obtain ⟨c,hc⟩ := h.exists_consumer
  have hcount := h.deleted_counted hdeleted hc
  have hle := (h.stands c hc).counted_le
  omega

/-- The node on which the producer writes is there until it has ended the list. -/
theorem Inv.last_there (h : Inv chunks q) (hgoes : q.producer.place ≠ .finished) :
    q.producer.curNext ∉ q.deleted := by
  intro hdeleted
  obtain ⟨c,hc⟩ := h.exists_consumer
  have hstands := h.stands c hc
  have hcount := h.deleted_counted hdeleted hc
  have hreached := hstands.reached
  have hended : ¬ q.Ended c.curNode := fun h => hgoes h.1
  unfold ConsumerTask.counted at hcount
  obtain ⟨cur,place,processed⟩ := c
  have hthere := hstands.there
  cases place with
  | processItem => exact absurd hcount (by simpa using hreached)
  | count => exact absurd hcount (by simpa using hreached)
  | poll reread =>
    have hcur : cur = q.producer.curNext := by
      simp only at hcount hreached
      omega
    exact hthere (by simp [ConsumerTask.reads]) (hcur ▸ hdeleted)
  | advance reread =>
    have hlt := hstands.advances reread rfl
    simp only at hcount hlt
    omega
  | delete oldNode last =>
    cases last with
    | false => exact absurd hcount (by simpa using hreached)
    | true =>
      have hdeletes := hstands.deletes oldNode true rfl
      exact hgoes hdeletes.2.1
  | uncount last =>
    cases last with
    | false => exact absurd hcount (by simpa using hreached)
    | true => exact hended (hstands.leaves (.inl rfl))
  | returned => exact hended (hstands.leaves (.inr rfl))

theorem Inv.last_node (h : Inv chunks q) (hgoes : q.producer.place ≠ .finished) :
    ∃ n, q.node q.producer.curNext = some n :=
  h.exists_node (Nat.le_refl _) (h.last_there hgoes)

theorem Inv.end (h : Inv chunks q) (hplace : q.producer.place = .wait) (hchunks : q.producer.chunks = []) :
    Inv chunks q.produce := by
  obtain ⟨n,hn⟩ := h.last_node (by simp [hplace])
  obtain ⟨hdata,_,hdone⟩ := h.nodes _ n hn
  have hnode := node_setNode (lt_of_node hn) (some { n with nextNode := .null })
  have hlinked := h.producer.linked
  rw [hplace] at hlinked
  simp only [produce,hplace,hchunks,access_some hn]
  refine ⟨h.safe,h.number,h.pos,h.fits,⟨?_,?_,?_,fun _ => rfl⟩,fun c hc => ?_,
    fun address m hm => ?_,fun address hlt => ?_,h.duty,?_⟩
  · have hrest := h.producer.rest
    rw [hchunks] at hrest
    simpa [setNode,hchunks] using hrest
  · simpa [setNode] using h.producer.length
  · simpa [setNode] using hlinked
  · have hold := h.stands c hc
    exact hold.mono (Nat.le_refl _) (fun _ hended => absurd hended.1 (by simp [hplace])) hold.there
  · change (q.setNode q.producer.curNext _).node address = some m at hm
    rw [hnode] at hm
    split at hm
    · rename_i heq
      subst heq
      obtain rfl := Option.some.inj hm
      exact ⟨hdata,by simp [nextOf],hdone⟩
    · rename_i hne
      obtain ⟨hdata',hnext',hdone'⟩ := h.nodes address m hm
      refine ⟨hdata',hnext'.trans ?_,hdone'⟩
      simp [nextOf,Ne.symm hne]
  · change (q.setNode q.producer.curNext _).node address = none ↔ address ∈ q.deleted
    rw [hnode]
    have hlt' : address < q.heap.length := by simpa [setNode] using hlt
    split
    · rename_i heq
      subst heq
      simp [h.last_there (by simp [hplace])]
    · exact h.gone address hlt'
  · have hsize := h.size
    simpa [ahead,hplace,setNode] using hsize

/-- A new node, to which no `nextNode` leads yet. -/
theorem Inv.allocate (h : Inv chunks q) {chunk : Str} {rest : List Str}
    (hplace : q.producer.place = .wait) (hchunks : q.producer.chunks = chunk :: rest)
    (hsize : ¬ SPMC_MAX_QUEUE_SIZE ≤ q.size) : Inv chunks q.produce := by
  have hlinked := h.producer.linked
  have hrest := h.producer.rest
  rw [hplace] at hlinked
  rw [if_neg (by simp)] at hlinked
  have hlt : q.heap.length < chunks.length := by
    by_contra hle
    rw [hchunks,List.drop_eq_nil_of_le (Nat.le_of_not_lt hle)] at hrest
    simp at hrest
  rw [hchunks,List.drop_eq_getElem_cons hlt] at hrest
  obtain ⟨hchunk,hdrop⟩ := List.cons.inj hrest
  have hnode : ∀ address, SpmcQueue.node { q with
      heap := q.heap ++ [some ⟨chunk,.wait,0⟩], producer := ⟨.link,q.producer.curNext,rest⟩ } address =
      if address = q.heap.length then some ⟨chunk,.wait,0⟩ else q.node address := by
    intro address
    unfold node
    simp only [List.getElem?_append]
    split_ifs with hin heq heq
    · omega
    · rfl
    · simp [heq]
    · rw [List.getElem?_eq_none (by simp; omega),List.getElem?_eq_none (by omega)]
  simp only [produce,hplace,hchunks,if_neg hsize]
  refine ⟨h.safe,h.number,h.pos,h.fits,⟨?_,?_,?_,by simp⟩,fun c hc => ?_,
    fun address m hm => ?_,fun address hin => ?_,h.duty,?_⟩
  · simpa using hdrop
  · simp only [List.length_append,List.length_singleton]
    omega
  · simpa using hlinked
  · have hold := h.stands c hc
    exact hold.mono (Nat.le_refl _) (fun _ hended => absurd hended.1 (by simp [hplace])) hold.there
  · rw [hnode] at hm
    split_ifs at hm with heq
    · obtain rfl := Option.some.inj hm
      subst heq
      refine ⟨by simp [hchunk,hlt],?_,?_⟩
      · simp only [nextOf]
        rw [if_neg (by omega),if_neg (by simp)]
      · symm
        rw [List.countP_eq_zero]
        intro c hc
        have hle := (h.stands c hc).counted_le
        simp only [decide_eq_true_eq]
        omega
    · obtain ⟨hdata,hnext,hdone⟩ := h.nodes address m hm
      refine ⟨hdata,hnext.trans ?_,hdone⟩
      simp [nextOf,hplace]
  · rw [hnode]
    split_ifs with heq
    · simp only [false_iff]
      intro hdeleted
      have hle := h.deleted_le hdeleted
      omega
    · refine h.gone address ?_
      simp only [List.length_append,List.length_singleton] at hin
      omega
  · have hold := h.size
    simp only [ahead,hplace,List.length_append,List.length_singleton] at hold ⊢
    omega

theorem Inv.link (h : Inv chunks q) (hplace : q.producer.place = .link) : Inv chunks q.produce := by
  obtain ⟨n,hn⟩ := h.last_node (by simp [hplace])
  obtain ⟨hdata,_,hdone⟩ := h.nodes _ n hn
  have hlinked := h.producer.linked
  rw [hplace,if_pos rfl] at hlinked
  have hroot : q.heap.length - 1 = q.producer.curNext + 1 := by omega
  have hnode := node_setNode (lt_of_node hn) (some { n with nextNode := .ptr (q.producer.curNext + 1) })
  simp only [produce,hplace,access_some hn,hroot]
  refine ⟨h.safe,h.number,h.pos,h.fits,⟨?_,?_,?_,by simp⟩,fun c hc => ?_,
    fun address m hm => ?_,fun address hlt => ?_,h.duty,?_⟩
  · simpa [setNode] using h.producer.rest
  · simpa [setNode] using h.producer.length
  · simpa [setNode] using hlinked
  · have hold := h.stands c hc
    exact hold.mono (Nat.le_succ _) (fun _ hended => absurd hended.1 (by simp [hplace])) hold.there
  · change (q.setNode q.producer.curNext _).node address = some m at hm
    rw [hnode] at hm
    split at hm
    · rename_i heq
      subst heq
      obtain rfl := Option.some.inj hm
      exact ⟨hdata,by simp [nextOf],hdone⟩
    · rename_i hne
      obtain ⟨hdata',hnext',hdone'⟩ := h.nodes address m hm
      refine ⟨hdata',hnext'.trans ?_,hdone'⟩
      simp only [nextOf,hplace]
      split_ifs <;> first | rfl | omega | simp_all
  · change (q.setNode q.producer.curNext _).node address = none ↔ address ∈ q.deleted
    rw [hnode]
    have hlt' : address < q.heap.length := by simpa [setNode] using hlt
    split
    · rename_i heq
      subst heq
      simp [h.last_there (by simp [hplace])]
    · exact h.gone address hlt'
  · have hsize := h.size
    simpa [ahead,hplace,setNode] using hsize

theorem Inv.grow (h : Inv chunks q) (hplace : q.producer.place = .count) : Inv chunks q.produce := by
  have hlinked := h.producer.linked
  rw [hplace] at hlinked
  simp only [produce,hplace]
  refine ⟨h.safe,h.number,h.pos,h.fits,⟨h.producer.rest,h.producer.length,by simpa using hlinked,by simp⟩,
    fun c hc => ?_,fun address m hm => ?_,h.gone,h.duty,?_⟩
  · have hold := h.stands c hc
    exact hold.mono (Nat.le_refl _) (fun _ hended => absurd hended.1 (by simp [hplace])) hold.there
  · obtain ⟨hdata,hnext,hdone⟩ := h.nodes address m hm
    refine ⟨hdata,hnext.trans ?_,hdone⟩
    simp [nextOf,hplace]
  · have hsize := h.size
    simp only [ahead,hplace] at hsize ⊢
    omega

theorem Inv.produce (h : Inv chunks q) : Inv chunks q.produce := by
  cases hplace : q.producer.place with
  | wait =>
    cases hchunks : q.producer.chunks with
    | nil => exact h.end hplace hchunks
    | cons chunk rest =>
      by_cases hsize : SPMC_MAX_QUEUE_SIZE ≤ q.size
      · simp only [SpmcQueue.produce,hplace,hchunks,if_pos hsize]
        exact h
      · exact h.allocate hplace hchunks hsize
  | link => exact h.link hplace
  | count => exact h.grow hplace
  | finished =>
    simp only [SpmcQueue.produce,hplace]
    exact h

theorem Inv.step (h : Inv chunks q) {thread : SpmcThread} (hvacates : q.Vacates thread) :
    Inv chunks (q.step thread) := by
  cases thread with
  | producer =>
    rw [step_producer q h.safe]
    exact h.produce
  | consumer i =>
    cases hc : q.consumers[i]? with
    | none =>
      rw [step_nobody q hc]
      exact h
    | some c =>
      rw [step_consumer q h.safe hc]
      exact h.consume hc hvacates

theorem inv_start {totalConsumers : Nat} (hpos : 0 < totalConsumers) (hfits : totalConsumers < 256)
    (chunk : Str) (rest : List Str) : Inv (chunk :: rest) (start totalConsumers chunk rest) := by
  have hmem : ∀ c ∈ (start totalConsumers chunk rest).consumers, c = ⟨0,.processItem,[]⟩ := fun c hc =>
    List.eq_of_mem_replicate hc
  have hcount : ∀ address, ((start totalConsumers chunk rest).consumers.countP
      fun c => address < c.counted) = 0 := by
    intro address
    rw [List.countP_eq_zero]
    intro c hc
    rw [hmem c hc]
    simp [ConsumerTask.counted]
  refine ⟨rfl,List.length_replicate,hpos,hfits,⟨rfl,by simp [start],rfl,by simp [start]⟩,fun c hc => ?_,
    fun address n hn => ?_,fun address hlt => ?_,fun address => ?_,?_⟩
  · rw [hmem c hc]
    exact ⟨Nat.zero_le _,rfl,by simp [ConsumerTask.reads],by simp,by simp,by simp⟩
  · rw [hcount]
    cases address with
    | zero =>
      obtain rfl : (⟨chunk,.wait,0⟩ : Spmc_Queue_Node) = n := by simpa [node,start] using hn
      exact ⟨rfl,rfl,rfl⟩
    | succ address => simp [node,start] at hn
  · obtain rfl : address = 0 := by simpa [start] using hlt
    simp [node,start]
  · rw [hcount]
    change _ = if 0 = totalConsumers then 1 else 0
    rw [if_neg (Nat.ne_of_lt hpos)]
    have hnone : (start totalConsumers chunk rest).consumers.countP (·.owes totalConsumers address) = 0 := by
      rw [List.countP_eq_zero]
      intro c hc
      rw [hmem c hc]
      simp [ConsumerTask.owes]
    simpa [start] using hnone
  · have hnone : (start totalConsumers chunk rest).consumers.countP ConsumerTask.uncounts = 0 := by
      rw [List.countP_eq_zero]
      intro c hc
      rw [hmem c hc]
      simp [ConsumerTask.uncounts]
    rw [hnone]
    rfl

end SpmcQueue

end RootHelper
