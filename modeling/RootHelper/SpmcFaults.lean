import RootHelper.SpmcProgress

/-!
Two consumers or more: all of them count themselves on the first node, the last one deletes it, and
another one still reads its `nextNode`.
-/

set_option autoImplicit false

namespace RootHelper
open Posix Control

namespace SpmcQueue

variable {totalConsumers : Nat} {chunk : Str} {rest : List Str}

/-- The consumer of this number has counted itself on the first node. -/
def counter (chunk : Str) (i : Nat) : ConsumerTask := ⟨0,.poll (i+1),[chunk]⟩

/-- The first node has this count, and nothing has been produced since. -/
def onFirst (totalConsumers : Nat) (chunk : Str) (rest : List Str) (done : Nat)
    (consumers : List ConsumerTask) : SpmcQueue :=
  { start totalConsumers chunk rest with heap := [some ⟨chunk,.wait,done⟩], consumers := consumers }

theorem onFirst_counts {l r : List ConsumerTask} {k : Nat} (hk : l.length = k) (hfits : k + 1 < 256) :
    ((onFirst totalConsumers chunk rest k (l ++ ⟨0,.processItem,[]⟩ :: r)).step (.consumer k)).step
        (.consumer k) =
      onFirst totalConsumers chunk rest (k+1) (l ++ counter chunk k :: r) := by
  subst hk
  have hprocess : (onFirst totalConsumers chunk rest l.length (l ++ ⟨0,.processItem,[]⟩ :: r)).step
      (.consumer l.length) =
      onFirst totalConsumers chunk rest l.length (l ++ ⟨0,.count,[chunk]⟩ :: r) := by
    rw [@step_consumer _ rfl _ ⟨0,.processItem,[]⟩ (by simp [onFirst])]
    simp [consume,access,node,setConsumer,onFirst]
  rw [hprocess,@step_consumer _ rfl _ ⟨0,.count,[chunk]⟩ (by simp [onFirst])]
  simp [consume,access,node,setConsumer,setNode,onFirst,counter,Nat.mod_eq_of_lt hfits]

def AnyRun (q q' : SpmcQueue) : Prop := Reachable next (fun _ _ => True) q q'

theorem AnyRun.step {q q' : SpmcQueue} (h : AnyRun q q') (thread : SpmcThread) :
    AnyRun q (q'.step thread) := Reachable.step h trivial rfl

theorem reach_counted (chunk : Str) (rest : List Str) (hfits : totalConsumers < 256) {k : Nat}
    (hk : k ≤ totalConsumers) :
    AnyRun (start totalConsumers chunk rest) (onFirst totalConsumers chunk rest k
      ((List.range k).map (counter chunk) ++
        List.replicate (totalConsumers - k) ⟨0,.processItem,[]⟩)) := by
  induction k with
  | zero => exact Reachable.start
  | succ k ih =>
    have hmore : totalConsumers - k = totalConsumers - (k+1) + 1 := by omega
    have hbefore := (ih (Nat.le_of_succ_le hk)).step (.consumer k) |>.step (.consumer k)
    rw [hmore,List.replicate_succ,onFirst_counts (by simp) (by omega)] at hbefore
    rw [List.range_succ,List.map_append,List.append_assoc]
    exact hbefore

theorem fault_of_gone (q : SpmcQueue) {j oldNode : Nat} {d : ConsumerTask} (hreads : d.reads oldNode = true)
    (hgone : q.node oldNode = none) : (q.consume j d).fault = true := by
  obtain ⟨cur,place,processed⟩ := d
  cases place with
  | poll reread =>
    obtain rfl : cur = oldNode := by simpa [ConsumerTask.reads] using hreads
    simp [consume,access,hgone]
  | advance reread =>
    obtain rfl : cur = oldNode := by simpa [ConsumerTask.reads] using hreads
    simp [consume,access,hgone]
  | processItem => simp [ConsumerTask.reads] at hreads
  | count => simp [ConsumerTask.reads] at hreads
  | delete old last => simp [ConsumerTask.reads] at hreads
  | uncount last => simp [ConsumerTask.reads] at hreads
  | returned => simp [ConsumerTask.reads] at hreads

/-- A step that deletes a node leaves a consumer that is still to read it where it is. -/
theorem deletion_leaves {q : SpmcQueue} {i j oldNode : Nat} {c d : ConsumerTask} {last : Bool}
    {n : Spmc_Queue_Node} (hsafe : q.fault = false) (hc : q.consumers[i]? = some c)
    (hplace : c.place = .delete oldNode last) (hn : q.node oldNode = some n)
    (hd : q.consumers[j]? = some d) (hreads : d.reads oldNode = true) :
    (q.step (.consumer i)).fault = false ∧ (q.step (.consumer i)).consumers[j]? = some d ∧
      (q.step (.consumer i)).heap.length = q.heap.length ∧
      (q.step (.consumer i)).node oldNode = none := by
  have hne : i ≠ j := by
    rintro rfl
    rw [hc] at hd
    rw [← Option.some.inj hd,ConsumerTask.reads,hplace] at hreads
    simp at hreads
  have hdelete : q.step (.consumer i) = { (q.setNode oldNode none).setConsumer i
      { c with place := .uncount last } with deleted := q.deleted ++ [oldNode] } := by
    rw [step_consumer q hsafe hc]
    simp only [consume,hplace,access_some hn]
  rw [hdelete]
  refine ⟨hsafe,?_,by simp [setConsumer,setNode],?_⟩
  · simpa [setConsumer,setNode,List.getElem?_set_ne hne] using hd
  · change (q.setNode oldNode none).node oldNode = none
    rw [node_setNode (lt_of_node hn),if_pos rfl]

theorem fault_of_not_vacated {q : SpmcQueue} {i j oldNode : Nat} {c d : ConsumerTask} {last : Bool}
    {n : Spmc_Queue_Node} (hsafe : q.fault = false) (hc : q.consumers[i]? = some c)
    (hplace : c.place = .delete oldNode last) (hn : q.node oldNode = some n)
    (hd : q.consumers[j]? = some d) (hreads : d.reads oldNode = true) :
    ((q.step (.consumer i)).step (.consumer j)).fault = true := by
  obtain ⟨hsafe',hother,_,hgone⟩ := deletion_leaves hsafe hc hplace hn hd hreads
  rw [step_consumer _ hsafe' hother]
  exact fault_of_gone _ hreads hgone

theorem reach_linked (chunk : Str) (rest : List Str) (hfits : totalConsumers < 256) :
    ∃ q n, AnyRun (start totalConsumers chunk rest) q ∧ q.fault = false ∧
      q.totalConsumers = totalConsumers ∧ q.node 0 = some n ∧ n.nextNode ≠ .wait ∧
      q.consumers = (List.range totalConsumers).map (counter chunk) := by
  have hcounted := reach_counted chunk rest hfits (Nat.le_refl totalConsumers)
  rw [Nat.sub_self,List.replicate_zero,List.append_nil] at hcounted
  cases rest with
  | nil =>
    refine ⟨_,⟨chunk,.null,totalConsumers⟩,hcounted.step .producer,?_⟩
    rw [step_producer _ rfl]
    simp [produce,access,node,setNode,onFirst,start]
  | cons next rest =>
    refine ⟨_,⟨chunk,.ptr 1,totalConsumers⟩,(hcounted.step .producer).step .producer,?_⟩
    have hallocate : (onFirst totalConsumers chunk (next :: rest) totalConsumers
        ((List.range totalConsumers).map (counter chunk))).step .producer =
        { onFirst totalConsumers chunk (next :: rest) totalConsumers
            ((List.range totalConsumers).map (counter chunk)) with
          heap := [some ⟨chunk,.wait,totalConsumers⟩,some ⟨next,.wait,0⟩]
          producer := ⟨.link,0,rest⟩ } := by
      rw [step_producer _ rfl]
      simp [produce,onFirst,start,SPMC_MAX_QUEUE_SIZE]
    rw [hallocate,step_producer _ rfl]
    simp [produce,access,node,setNode,onFirst,start]

theorem reach_deletion {q₀ q : SpmcQueue} {n : Spmc_Queue_Node} {i j : Nat} {d : ConsumerTask}
    {processed : List Str} (hrun : AnyRun q₀ q) (hsafe : q.fault = false) (hn : q.node 0 = some n)
    (hnext : n.nextNode ≠ .wait) (hc : q.consumers[i]? = some ⟨0,.poll q.totalConsumers,processed⟩)
    (hne : i ≠ j) (hd : q.consumers[j]? = some d) :
    ∃ q' c last, AnyRun q₀ q' ∧ q'.fault = false ∧ q'.node 0 = some n ∧
      q'.consumers[i]? = some c ∧ c.place = .delete 0 last ∧ q'.consumers[j]? = some d := by
  obtain ⟨hi,_⟩ := List.getElem?_eq_some_iff.mp hc
  have hset : ∀ c : ConsumerTask, (q.setConsumer i c).consumers[i]? = some c ∧
      (q.setConsumer i c).consumers[j]? = some d := fun c =>
    ⟨List.getElem?_set_self hi,(List.getElem?_set_ne hne).trans hd⟩
  have hpoll := hrun.step (.consumer i)
  rw [step_consumer q hsafe hc] at hpoll
  simp only [consume,access_some hn] at hpoll
  cases hnode : n.nextNode with
  | wait => exact absurd hnode hnext
  | null =>
    simp only [hnode,if_true] at hpoll
    exact ⟨_,_,true,hpoll,hsafe,hn,(hset _).1,rfl,(hset _).2⟩
  | ptr next =>
    simp only [hnode] at hpoll
    have hadvance := hpoll.step (.consumer i)
    rw [@step_consumer (q.setConsumer i _) hsafe i _ (hset _).1] at hadvance
    have hn' : (q.setConsumer i ⟨0,.advance q.totalConsumers,processed⟩).node 0 = some n := hn
    simp only [consume,access_some hn',hnode] at hadvance
    have htwice : ∀ c c' : ConsumerTask, ((q.setConsumer i c).setConsumer i c') = q.setConsumer i c' := by
      intro c c'
      simp [setConsumer]
    rw [htwice] at hadvance
    refine ⟨_,_,false,hadvance,hsafe,hn,(hset _).1,?_,(hset _).2⟩
    exact if_pos rfl

theorem reach_fault (chunk : Str) (rest : List Str) (htwo : 2 ≤ totalConsumers) (hfits : totalConsumers < 256) :
    ∃ q, AnyRun (start totalConsumers chunk rest) q ∧ q.fault = true := by
  obtain ⟨q,n,hrun,hsafe,htotal,hn,hnext,hconsumers⟩ :=
    reach_linked chunk rest hfits
  have hlast : q.consumers[totalConsumers - 1]? = some ⟨0,.poll q.totalConsumers,[chunk]⟩ := by
    rw [hconsumers,htotal,List.getElem?_map,List.getElem?_range (by omega)]
    simp only [Option.map_some,counter]
    rw [Nat.sub_add_cancel (by omega)]
  have hfirst : q.consumers[0]? = some (counter chunk 0) := by
    rw [hconsumers,List.getElem?_map,List.getElem?_range (by omega)]
    rfl
  obtain ⟨q',c,last,hrun',hsafe',hn',hc,hplace,hd⟩ :=
    reach_deletion hrun hsafe hn hnext hlast (by omega) hfirst
  refine ⟨_,(hrun'.step (.consumer (totalConsumers - 1))).step (.consumer 0),?_⟩
  exact fault_of_not_vacated hsafe' hc hplace hn' hd (by simp [ConsumerTask.reads,counter])

/-- While no consumer deletes a node whose `nextNode` another one is still to read, the threads do no
harm, and they come to their end when each goes on again and again. So it is in every run only if there
is a single consumer. -/
theorem spmc_complete_iff (hpos : 0 < totalConsumers) (hfits : totalConsumers < 256) :
    (∀ q, Reachable next Vacates (start totalConsumers chunk rest) q → Sound (chunk :: rest) q) ∧
    (∀ (act : Nat → SpmcThread) (st : Nat → SpmcQueue), st 0 = start totalConsumers chunk rest →
      (∀ n, st (n+1) = (st n).step (act n) ∧ (st n).Vacates (act n)) →
      (∀ thread, (start totalConsumers chunk rest).HasThread thread → ∀ n, ∃ m, n ≤ m ∧ act m = thread) →
      ∃ n, ∀ m, n ≤ m → Complete (chunk :: rest) (st m)) ∧
    ((∀ q, AnyRun (start totalConsumers chunk rest) q → Sound (chunk :: rest) q) ↔ totalConsumers = 1) := by
  refine ⟨fun q hrun => (inv_of_reachable hpos hfits hrun).sound,fun act st hstart hrun hfair =>
    exists_complete hpos hfits hstart hrun hfair,fun hall => ?_,?_⟩
  · by_contra hne
    obtain ⟨q,hrun,hfault⟩ := reach_fault chunk rest (by omega) hfits
    have hsafe := (hall q hrun).safe
    rw [hfault] at hsafe
    simp at hsafe
  · rintro rfl q hrun
    exact (inv_of_single hrun).1.sound

/-- A consumer is still to read a node that is gone. -/
def Stranded (q : SpmcQueue) : Prop :=
  ∃ (j : Nat) (d : ConsumerTask) (oldNode : Nat), q.consumers[j]? = some d ∧ d.reads oldNode = true ∧
    oldNode < q.heap.length ∧ q.node oldNode = none

theorem gone_setNode {q : SpmcQueue} {oldNode address : Nat} {n : Spmc_Queue_Node}
    (hgone : q.node oldNode = none) (hn : q.node address = some n) (m : Option Spmc_Queue_Node) :
    (q.setNode address m).node oldNode = none := by
  have hne : address ≠ oldNode := by
    rintro rfl
    rw [hn] at hgone
    cases hgone
  rw [node_setNode (lt_of_node hn),if_neg hne,hgone]

theorem Stranded.produce {q : SpmcQueue} (h : Stranded q) : q.produce.fault = true ∨ Stranded q.produce := by
  obtain ⟨j,d,oldNode,hd,hreads,hlt,hgone⟩ := h
  cases hplace : q.producer.place with
  | wait =>
    cases hchunks : q.producer.chunks with
    | nil =>
      simp only [SpmcQueue.produce,hplace,hchunks]
      cases hn : q.node q.producer.curNext with
      | none => exact .inl (by simp [access,hn])
      | some n =>
        rw [access_some hn]
        exact .inr ⟨j,d,oldNode,hd,hreads,by simpa [setNode] using hlt,gone_setNode hgone hn _⟩
    | cons chunk chunks =>
      simp only [SpmcQueue.produce,hplace,hchunks]
      by_cases hfull : SPMC_MAX_QUEUE_SIZE ≤ q.size
      · simp only [if_pos hfull]
        exact .inr ⟨j,d,oldNode,hd,hreads,hlt,hgone⟩
      · simp only [if_neg hfull]
        refine .inr ⟨j,d,oldNode,hd,hreads,?_,?_⟩
        · rw [List.length_append]
          omega
        · change ((q.heap ++ _)[oldNode]?).join = none
          rw [List.getElem?_append_left hlt]
          exact hgone
  | link =>
    simp only [SpmcQueue.produce,hplace]
    cases hn : q.node q.producer.curNext with
    | none => exact .inl (by simp [access,hn])
    | some n =>
      rw [access_some hn]
      exact .inr ⟨j,d,oldNode,hd,hreads,by simpa [setNode] using hlt,gone_setNode hgone hn _⟩
  | count =>
    simp only [SpmcQueue.produce,hplace]
    exact .inr ⟨j,d,oldNode,hd,hreads,hlt,hgone⟩
  | finished =>
    simp only [SpmcQueue.produce,hplace]
    exact .inr ⟨j,d,oldNode,hd,hreads,hlt,hgone⟩

/-- What another consumer does leaves the one that is stranded where it is. -/
theorem Stranded.set {q q' : SpmcQueue} {i j oldNode : Nat} {c d : ConsumerTask} (hne : i ≠ j)
    (hd : q.consumers[j]? = some d) (hreads : d.reads oldNode = true) (hlt : oldNode < q.heap.length)
    (hconsumers : q'.consumers = q.consumers.set i c) (hlength : q'.heap.length = q.heap.length)
    (hgone : q'.node oldNode = none) : Stranded q' := by
  refine ⟨j,d,oldNode,?_,hreads,by omega,hgone⟩
  rw [hconsumers,List.getElem?_set_ne hne]
  exact hd

theorem Stranded.consume {q : SpmcQueue} (h : Stranded q) {i : Nat} {c : ConsumerTask}
    (hc : q.consumers[i]? = some c) : (q.consume i c).fault = true ∨ Stranded (q.consume i c) := by
  obtain ⟨j,d,oldNode,hd,hreads,hlt,hgone⟩ := h
  by_cases heq : i = j
  · subst heq
    rw [hc] at hd
    exact .inl (fault_of_gone q (Option.some.inj hd ▸ hreads) hgone)
  have hstill : Stranded q := ⟨j,d,oldNode,hd,hreads,hlt,hgone⟩
  have hmoved : ∀ e, Stranded (q.setConsumer i e) := fun e => Stranded.set heq hd hreads hlt rfl rfl hgone
  obtain ⟨cur,place,processed⟩ := c
  cases place with
  | processItem =>
    cases hn : q.node cur with
    | none => exact .inl (by simp [SpmcQueue.consume,access,hn])
    | some n =>
      simp only [SpmcQueue.consume,access_some hn]
      exact .inr (hmoved _)
  | count =>
    cases hn : q.node cur with
    | none => exact .inl (by simp [SpmcQueue.consume,access,hn])
    | some n =>
      simp only [SpmcQueue.consume,access_some hn]
      exact .inr (Stranded.set heq hd hreads hlt rfl (by simp [setConsumer,setNode])
        (gone_setNode hgone hn _))
  | poll reread =>
    cases hn : q.node cur with
    | none => exact .inl (by simp [SpmcQueue.consume,access,hn])
    | some n =>
      simp only [SpmcQueue.consume,access_some hn]
      split
      · exact .inr hstill
      · exact .inr (hmoved _)
      · exact .inr (hmoved _)
  | advance reread =>
    cases hn : q.node cur with
    | none => exact .inl (by simp [SpmcQueue.consume,access,hn])
    | some n =>
      simp only [SpmcQueue.consume,access_some hn]
      split
      · exact .inr (hmoved _)
      · exact .inl rfl
  | delete old last =>
    cases hn : q.node old with
    | none => exact .inl (by simp [SpmcQueue.consume,access,hn])
    | some n =>
      simp only [SpmcQueue.consume,access_some hn]
      exact .inr (Stranded.set heq hd hreads hlt rfl (by simp [setConsumer,setNode])
        (gone_setNode hgone hn _))
  | uncount last => exact .inr (Stranded.set heq hd hreads hlt rfl rfl hgone)
  | returned => exact .inr hstill

theorem Stranded.step {q : SpmcQueue} (h : Stranded q) (thread : SpmcThread) :
    (q.step thread).fault = true ∨ Stranded (q.step thread) := by
  cases hfault : q.fault with
  | true => exact .inl (by simp [SpmcQueue.step,hfault])
  | false =>
    cases thread with
    | producer =>
      rw [step_producer q hfault]
      exact h.produce
    | consumer i =>
      cases hc : q.consumers[i]? with
      | none =>
        rw [step_nobody q hc]
        exact .inr h
      | some c =>
        rw [step_consumer q hfault hc]
        exact h.consume hc

theorem Inv.stranded {chunks : List Str} {q : SpmcQueue} (h : Inv chunks q) {thread : SpmcThread}
    (hharm : ¬ q.Vacates thread) : Stranded (q.step thread) := by
  cases thread with
  | producer => exact absurd trivial hharm
  | consumer i =>
    simp only [Vacates,not_forall,Bool.not_eq_false] at hharm
    obtain ⟨c,hc,oldNode,last,hplace,d,hd,hreads⟩ := hharm
    obtain ⟨j,hj⟩ := List.mem_iff_getElem?.mp hd
    obtain ⟨n,hn⟩ := h.exists_old (mem_of_consumer hc) hplace
    obtain ⟨_,hother,hlength,hgone⟩ := deletion_leaves h.safe hc hplace hn hj hreads
    exact ⟨j,d,oldNode,hother,hreads,hlength ▸ lt_of_node hn,hgone⟩

theorem inv_or_stranded (hpos : 0 < totalConsumers) (hfits : totalConsumers < 256) {q : SpmcQueue}
    (hrun : AnyRun (start totalConsumers chunk rest) q) :
    q.fault = true ∨ Stranded q ∨ Inv (chunk :: rest) q := by
  refine @Reachable.invariant _ _ next _ _ _
    (fun q => q.fault = true ∨ Stranded q ∨ Inv (chunk :: rest) q)
    (.inr (.inr (inv_start hpos hfits chunk rest))) (fun q thread q' h _ hnext => ?_) hrun
  rw [← Option.some.inj hnext]
  obtain hfault | hstranded | hinv := h
  · exact .inl (by simp [SpmcQueue.step,hfault])
  · exact (hstranded.step thread).imp_right .inl
  · by_cases hvacates : q.Vacates thread
    · exact .inr (.inr (hinv.step hvacates))
    · exact .inr (.inl (hinv.stranded hvacates))

theorem sound_of_returned (hpos : 0 < totalConsumers) (hfits : totalConsumers < 256) {q : SpmcQueue}
    (hrun : AnyRun (start totalConsumers chunk rest) q) (hsafe : q.fault = false)
    (hreturned : ∀ c ∈ q.consumers, c.place = .returned) : Sound (chunk :: rest) q := by
  obtain hfault | ⟨j,d,oldNode,hd,hreads,_⟩ | hinv := inv_or_stranded hpos hfits hrun
  · rw [hsafe] at hfault
    cases hfault
  · rw [ConsumerTask.reads,hreturned d (mem_of_consumer hd)] at hreads
    cases hreads
  · exact hinv.sound

/-- The producer and two consumers in turn, with two chunks. -/
def alternate (n : Nat) : SpmcThread := if n % 3 = 0 then .producer else .consumer (n % 3 - 1)

def alternating : Nat → SpmcQueue
  | 0 => start 2 [1] [[2]]
  | n+1 => (alternating n).step (alternate n)

def deletes (c : ConsumerTask) : Option Nat :=
  match c.place with
  | .delete oldNode _ => some oldNode
  | _ => none

theorem alternating_rests (n : Nat) : alternating (33+n) = alternating 33 := by
  have hrests : ∀ i < 3, (alternating 33).step (alternate i) = alternating 33 := by decide +kernel
  induction n with
  | zero => rfl
  | succ n ih =>
    have hturn : alternate (33+n) = alternate ((33+n) % 3) := by simp [alternate]
    rw [← Nat.add_assoc,alternating,ih,hturn]
    exact hrests _ (Nat.mod_lt _ (by decide))

theorem alternating_vacates (n : Nat) : (alternating n).Vacates (alternate n) := by
  have hbefore : ∀ n < 33, ∀ c ∈ (alternating n).consumers[n % 3 - 1]?, ∀ oldNode ∈ deletes c,
      ∀ d ∈ (alternating n).consumers, d.reads oldNode = false := by decide +kernel
  have hafter : ∀ c ∈ (alternating 33).consumers, c.place = .returned := by decide +kernel
  by_cases hproducer : n % 3 = 0
  · rw [alternate,if_pos hproducer]
    exact trivial
  · rw [alternate,if_neg hproducer]
    intro c hc oldNode last hplace
    rcases Nat.lt_or_ge n 33 with hn | hn
    · exact hbefore n hn c hc oldNode (by simp [deletes,hplace])
    · obtain ⟨m,rfl⟩ := Nat.exists_eq_add_of_le hn
      rw [alternating_rests] at hc
      rw [hafter c (List.mem_of_getElem? hc)] at hplace
      cases hplace

theorem alternating_completes : ∃ n, ∀ m, n ≤ m → Complete [[1],[2]] (alternating m) := by
  refine (spmc_complete_iff (by decide) (by decide)).2.1 alternate alternating rfl
    (fun n => ⟨rfl,alternating_vacates n⟩) fun thread hthread n => ?_
  cases thread with
  | producer => exact ⟨3*n,by omega,by simp [alternate]⟩
  | consumer i =>
    have hi : i < 2 := hthread
    refine ⟨3*n+(i+1),by omega,?_⟩
    have hmod : (3*n+(i+1)) % 3 = i+1 := by omega
    rw [alternate,hmod]
    rfl

/-- Both have counted themselves on the only node, the second deletes it, and the first reads it. -/
theorem two_consumers_fault :
    ¬ ∀ q, Reachable next (fun _ _ => True) (start 2 [1] []) q → Sound [[1]] q := by
  intro hall
  have hbad : ∃ q, Reachable next (fun _ _ => True) (start 2 [1] []) q ∧ q.fault = true :=
    @exists_reachable SpmcQueue SpmcThread next _ _ _ (fun q => q.fault) [.consumer 0,.consumer 0,
      .consumer 1,.consumer 1,.producer,.consumer 1,.consumer 1,.consumer 0] (by decide)
  obtain ⟨q,hrun,hfault⟩ := hbad
  have hsafe := (hall q hrun).safe
  rw [hfault] at hsafe
  simp at hsafe

end SpmcQueue

end RootHelper
