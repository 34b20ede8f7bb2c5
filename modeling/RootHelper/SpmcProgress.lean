import Mathlib.Algebra.Ring.Nat
import Mathlib.Data.List.Nodup
import Mathlib.Data.List.Perm.Subperm
import RootHelper.SpmcSafety

/-!
The queue comes to its end: each step that changes something brings it nearer, and where nothing can
change any more the consumers have returned.
-/

set_option autoImplicit false

namespace RootHelper
open Posix Control

def SpmcProducer.remaining (p : SpmcProducer) : Nat :=
  match p.place with
  | .wait => 3*p.chunks.length + 1
  | .link => 3*p.chunks.length + 3
  | .count => 3*p.chunks.length + 2
  | .finished => 0

def ConsumerTask.remaining (nodes : Nat) (c : ConsumerTask) : Nat :=
  match c.place with
  | .processItem => 6*(nodes - c.curNode)
  | .count => 6*(nodes - c.curNode) - 1
  | .poll _ => 6*(nodes - c.curNode) - 2
  | .advance _ => 6*(nodes - c.curNode) - 3
  | .delete _ false => 6*(nodes - c.curNode) + 2
  | .uncount false => 6*(nodes - c.curNode) + 1
  | .delete _ true => 2
  | .uncount true => 1
  | .returned => 0

theorem sum_set_add {α : Type} {f : α → Nat} {l : List α} {i : Nat} {a b : α} (h : l[i]? = some a) :
    ((l.set i b).map f).sum + f a = (l.map f).sum + f b := by
  induction l generalizing i with
  | nil => simp at h
  | cons x l ih =>
    cases i with
    | zero =>
      obtain rfl : x = a := by simpa using h
      simp only [List.set_cons_zero,List.map_cons,List.sum_cons]
      omega
    | succ i =>
      have hi := ih (i := i) (by simpa using h)
      simp only [List.set_cons_succ,List.map_cons,List.sum_cons]
      omega

namespace SpmcQueue

variable {chunks : List Str} {q : SpmcQueue} {i : Nat} {c d : ConsumerTask}

def remaining (nodes : Nat) (q : SpmcQueue) : Nat :=
  q.producer.remaining + (q.consumers.map (ConsumerTask.remaining nodes)).sum

theorem Inv.sound (h : Inv chunks q) : Sound chunks q where
  safe := h.safe
  once := by
    rw [List.nodup_iff_count_le_one]
    intro address
    have hduty := h.duty address
    split at hduty <;> omega
  order c hc := by
    rw [(h.stands c hc).processed]
    exact List.take_prefix _ _
  whole c hc hplace := by
    have hstands := h.stands c hc
    obtain ⟨hfinished,hcur⟩ := hstands.leaves (.inr hplace)
    have hlinked := h.producer.linked
    have hrest := h.producer.rest
    have hpassed : c.passed = c.curNode + 1 := by simp [ConsumerTask.passed,hplace]
    rw [if_neg (by simp [hfinished])] at hlinked
    rw [h.producer.ended hfinished,eq_comm,List.drop_eq_nil_iff] at hrest
    rw [hstands.processed,hpassed,hcur,hlinked,List.take_of_length_le hrest]

theorem Inv.curNode_lt (h : Inv chunks q) (hc : c ∈ q.consumers) : c.curNode < chunks.length := by
  have hreached := (h.stands c hc).reached
  have hlinked := h.producer.linked
  have hlength := h.producer.length
  split at hlinked <;> omega

/-- The consumer has nothing to do, for ever or until the producer goes on. -/
def Idles (q : SpmcQueue) (c : ConsumerTask) : Prop :=
  c.place = .returned ∨
    ((∃ reread, c.place = .poll reread) ∧ c.curNode = q.producer.curNext ∧ q.producer.place ≠ .finished)

theorem Inv.consume_progress (h : Inv chunks q) (hc : q.consumers[i]? = some c) :
    (q.consume i c = q ∧ q.Idles c) ∨ ∃ d, (q.consume i c).consumers = q.consumers.set i d ∧
      (q.consume i c).producer = q.producer ∧
      d.remaining chunks.length < c.remaining chunks.length := by
  have hmem := mem_of_consumer hc
  have hstands := h.stands c hmem
  have hlt := h.curNode_lt hmem
  have hcurrent := h.exists_current hmem
  obtain ⟨cur,place,processed⟩ := c
  simp only at hlt hcurrent
  cases place with
  | processItem =>
    obtain ⟨n,hn⟩ := hcurrent rfl
    simp only [SpmcQueue.consume,access_some hn]
    refine .inr ⟨_,rfl,rfl,?_⟩
    simp only [ConsumerTask.remaining]
    omega
  | count =>
    obtain ⟨n,hn⟩ := hcurrent rfl
    simp only [SpmcQueue.consume,access_some hn]
    refine .inr ⟨_,rfl,rfl,?_⟩
    simp only [ConsumerTask.remaining]
    omega
  | poll reread =>
    obtain ⟨n,hn⟩ := hcurrent rfl
    have hnext := (h.nodes cur n hn).2.1
    simp only [SpmcQueue.consume,access_some hn]
    cases hnode : n.nextNode with
    | wait =>
      rw [hnode,nextOf] at hnext
      split_ifs at hnext with hbefore hend
      have hreached : cur ≤ q.producer.curNext := hstands.reached
      have hcur : cur = q.producer.curNext := by omega
      exact .inl ⟨rfl,.inr ⟨⟨reread,rfl⟩,hcur,fun hfinished => hend ⟨hcur,hfinished⟩⟩⟩
    | null =>
      refine .inr ⟨_,rfl,rfl,?_⟩
      simp only [ConsumerTask.remaining]
      by_cases hlast : reread = q.totalConsumers
      · simp only [if_pos hlast]
        omega
      · simp only [if_neg hlast]
        omega
    | ptr next =>
      refine .inr ⟨_,rfl,rfl,?_⟩
      simp only [ConsumerTask.remaining]
      omega
  | advance reread =>
    obtain ⟨n,hn⟩ := hcurrent rfl
    have hbefore : cur < q.producer.curNext := hstands.advances reread rfl
    have hnext := (h.nodes cur n hn).2.1
    rw [nextOf,if_pos hbefore] at hnext
    simp only [SpmcQueue.consume,access_some hn,hnext]
    refine .inr ⟨_,rfl,rfl,?_⟩
    simp only [ConsumerTask.remaining]
    by_cases hlast : reread = q.totalConsumers
    · simp only [if_pos hlast]
      omega
    · simp only [if_neg hlast]
      omega
  | delete oldNode last =>
    obtain ⟨n,hn⟩ := h.exists_old hmem rfl
    simp only [SpmcQueue.consume,access_some hn]
    refine .inr ⟨_,rfl,rfl,?_⟩
    cases last <;> simp [ConsumerTask.remaining]
  | uncount last =>
    refine .inr ⟨_,rfl,rfl,?_⟩
    cases last <;> simp [ConsumerTask.remaining]
  | returned => exact .inl ⟨rfl,.inl rfl⟩

theorem Inv.produce_progress (h : Inv chunks q) :
    (q.produce = q ∧ (q.producer.place = .finished ∨
      q.producer.place = .wait ∧ SPMC_MAX_QUEUE_SIZE ≤ q.size)) ∨
    (q.produce.consumers = q.consumers ∧ q.produce.producer.remaining < q.producer.remaining) := by
  cases hplace : q.producer.place with
  | wait =>
    cases hchunks : q.producer.chunks with
    | nil =>
      obtain ⟨n,hn⟩ := h.last_node (by simp [hplace])
      refine .inr ?_
      simp only [SpmcQueue.produce,hplace,hchunks,access_some hn]
      exact ⟨rfl,by simp [SpmcProducer.remaining,hplace]⟩
    | cons chunk rest =>
      by_cases hsize : SPMC_MAX_QUEUE_SIZE ≤ q.size
      · have hsame : q.produce = q := by simp only [SpmcQueue.produce,hplace,hchunks,if_pos hsize]
        exact .inl ⟨hsame,.inr ⟨rfl,hsize⟩⟩
      · refine .inr ?_
        simp only [SpmcQueue.produce,hplace,hchunks,if_neg hsize]
        refine ⟨trivial,?_⟩
        simp only [SpmcProducer.remaining,hplace,hchunks,List.length_cons]
        omega
  | link =>
    obtain ⟨n,hn⟩ := h.last_node (by simp [hplace])
    refine .inr ?_
    simp only [SpmcQueue.produce,hplace,access_some hn]
    exact ⟨rfl,by simp [SpmcProducer.remaining,hplace]⟩
  | count =>
    refine .inr ?_
    simp only [SpmcQueue.produce,hplace]
    exact ⟨trivial,by simp [SpmcProducer.remaining,hplace]⟩
  | finished =>
    have hsame : q.produce = q := by simp only [SpmcQueue.produce,hplace]
    exact .inl ⟨hsame,.inl rfl⟩

theorem Inv.step_progress (h : Inv chunks q) (thread : SpmcThread) :
    q.step thread = q ∨ (q.step thread).remaining chunks.length < q.remaining chunks.length := by
  cases thread with
  | producer =>
    rw [step_producer q h.safe]
    rcases h.produce_progress with ⟨hsame,_⟩ | ⟨hconsumers,hless⟩
    · exact .inl hsame
    · refine .inr ?_
      simp only [remaining,hconsumers]
      omega
  | consumer i =>
    cases hc : q.consumers[i]? with
    | none => exact .inl (step_nobody q hc)
    | some c =>
      rw [step_consumer q h.safe hc]
      rcases h.consume_progress hc with ⟨hsame,_⟩ | ⟨d,hconsumers,hproducer,hless⟩
      · exact .inl hsame
      · have hsum := sum_set_add (f := ConsumerTask.remaining chunks.length) (b := d) hc
        refine .inr ?_
        simp only [remaining,hconsumers,hproducer]
        omega

def HasThread (q : SpmcQueue) : SpmcThread → Prop
  | .producer => True
  | .consumer i => i < q.totalConsumers

theorem Inv.idles (h : Inv chunks q) (hstill : ∀ thread, q.HasThread thread → q.step thread = q)
    (hc : c ∈ q.consumers) : q.Idles c := by
  obtain ⟨i,hi,hget⟩ := List.mem_iff_getElem.mp hc
  have hget? : q.consumers[i]? = some c := by rw [List.getElem?_eq_getElem hi,hget]
  have hthread : i < q.totalConsumers := h.number ▸ hi
  have hstep := hstill (.consumer i) hthread
  rw [step_consumer q h.safe hget?] at hstep
  rcases h.consume_progress hget? with ⟨_,hidles⟩ | ⟨d,hconsumers,_,hless⟩
  · exact hidles
  · rw [hstep] at hconsumers
    have hd : some d = some c := by
      rw [← hget?,hconsumers,List.getElem?_set_self hi]
    rw [Option.some.inj hd] at hless
    exact absurd hless (Nat.lt_irrefl _)

/-- What all have counted and none is to delete has been deleted. -/
theorem Inv.mem_deleted (h : Inv chunks q) {address : Nat}
    (hcounted : ∀ c ∈ q.consumers, address < c.counted)
    (howes : ∀ c ∈ q.consumers, c.owes q.totalConsumers address = false) : address ∈ q.deleted := by
  have hall : (q.consumers.countP fun c => address < c.counted) = q.totalConsumers := by
    rw [← h.number,List.countP_eq_length]
    exact fun c hc => decide_eq_true (hcounted c hc)
  have hnone : q.consumers.countP (·.owes q.totalConsumers address) = 0 := by
    rw [List.countP_eq_zero]
    exact fun c hc => by simp [howes c hc]
  have hduty := h.duty address
  rw [if_pos hall,hnone] at hduty
  exact List.count_pos_iff.mp (by omega)

/-- Consumers that wait for a next node have left the others to nobody, and the queue is not full. -/
theorem Inv.size_of_waiting (h : Inv chunks q) (hplace : q.producer.place = .wait)
    (hwait : ∀ c ∈ q.consumers, (∃ reread, c.place = .poll reread) ∧ c.curNode = q.producer.curNext) :
    q.size < SPMC_MAX_QUEUE_SIZE := by
  have hdeleted : List.range q.producer.curNext ⊆ q.deleted := by
    intro address haddress
    have hlt := List.mem_range.mp haddress
    refine h.mem_deleted (fun c hc => ?_) fun c hc => ?_
    · obtain ⟨⟨reread,hpoll⟩,hcur⟩ := hwait c hc
      simp only [ConsumerTask.counted,hpoll]
      omega
    · obtain ⟨⟨reread,hpoll⟩,hcur⟩ := hwait c hc
      simp only [ConsumerTask.owes,hpoll,decide_eq_false_iff_not]
      omega
  have hlength := (List.Nodup.subperm List.nodup_range hdeleted).length_le
  have huncounts : q.consumers.countP ConsumerTask.uncounts = 0 := by
    rw [List.countP_eq_zero]
    intro c hc
    obtain ⟨⟨reread,hpoll⟩,_⟩ := hwait c hc
    simp [ConsumerTask.uncounts,hpoll]
  have hlinked := h.producer.linked
  have hsize := h.size
  rw [hplace,if_neg (by simp)] at hlinked
  rw [huncounts,← hlinked] at hsize
  simp only [ahead,hplace,List.length_range] at hsize hlength
  unfold SPMC_MAX_QUEUE_SIZE
  omega

theorem Inv.complete (h : Inv chunks q) (hstill : ∀ thread, q.HasThread thread → q.step thread = q) :
    Complete chunks q := by
  have hidles : ∀ c ∈ q.consumers, q.Idles c := fun c hc => h.idles hstill hc
  have hfinished : q.producer.place = .finished := by
    by_contra hgoes
    have hproduce : q.produce = q := by
      rw [← step_producer q h.safe]
      exact hstill .producer trivial
    have hwait : ∀ c ∈ q.consumers,
        (∃ reread, c.place = .poll reread) ∧ c.curNode = q.producer.curNext := by
      intro c hc
      rcases hidles c hc with hreturned | ⟨hpoll,hcur,_⟩
      · exact absurd ((h.stands c hc).leaves (.inr hreturned)).1 hgoes
      · exact ⟨hpoll,hcur⟩
    rcases h.produce_progress with ⟨_,hend | ⟨hplace,hfull⟩⟩ | ⟨_,hless⟩
    · exact hgoes hend
    · exact absurd (h.size_of_waiting hplace hwait) (not_lt.mpr hfull)
    · rw [hproduce] at hless
      exact absurd hless (Nat.lt_irrefl _)
  have hreturned : ∀ c ∈ q.consumers, c.place = .returned := by
    intro c hc
    rcases hidles c hc with hreturned | ⟨_,_,hgoes⟩
    · exact hreturned
    · exact absurd hfinished hgoes
  have hlinked := h.producer.linked
  have hrest := h.producer.rest
  have hlength := h.producer.length
  rw [if_neg (by simp [hfinished])] at hlinked
  rw [h.producer.ended hfinished,eq_comm,List.drop_eq_nil_iff] at hrest
  refine ⟨h.sound,hfinished,hreturned,fun address => ⟨fun hdeleted => ?_,fun hlt => ?_⟩⟩
  · have hle := h.deleted_le hdeleted
    omega
  · refine h.mem_deleted (fun c hc => ?_) fun c hc => ?_
    · have hcur := ((h.stands c hc).leaves (.inr (hreturned c hc))).2
      simp only [ConsumerTask.counted,hreturned c hc]
      omega
    · simp [ConsumerTask.owes,hreturned c hc]

/-- The queue's steps as those of a system. -/
def next (thread : SpmcThread) (q : SpmcQueue) : Option SpmcQueue := some (q.step thread)

section Runs

variable {totalConsumers : Nat} {chunk : Str} {rest : List Str}

theorem inv_of_reachable (hpos : 0 < totalConsumers) (hfits : totalConsumers < 256)
    (hrun : Reachable next Vacates (start totalConsumers chunk rest) q) : Inv (chunk :: rest) q := by
  refine hrun.invariant (inv_start hpos hfits chunk rest) fun q thread q' h hvacates hnext => ?_
  rw [← Option.some.inj hnext]
  exact h.step hvacates

theorem totalConsumers_access {address : Nat} {f : Spmc_Queue_Node → SpmcQueue}
    (hf : ∀ n, (f n).totalConsumers = q.totalConsumers) :
    (q.access address f).totalConsumers = q.totalConsumers := by
  unfold access
  split
  · rfl
  · exact hf _

theorem totalConsumers_step (thread : SpmcThread) : (q.step thread).totalConsumers = q.totalConsumers := by
  have hproduce : q.produce.totalConsumers = q.totalConsumers := by
    unfold SpmcQueue.produce
    dsimp only
    split
    · split
      · exact totalConsumers_access fun _ => rfl
      · split <;> rfl
    · exact totalConsumers_access fun _ => rfl
    · rfl
    · rfl
  have hconsume : ∀ i c, (q.consume i c).totalConsumers = q.totalConsumers := by
    intro i c
    unfold SpmcQueue.consume
    split
    · exact totalConsumers_access fun _ => rfl
    · exact totalConsumers_access fun _ => rfl
    · refine totalConsumers_access fun n => ?_
      cases n.nextNode <;> rfl
    · refine totalConsumers_access fun n => ?_
      cases n.nextNode <;> rfl
    · exact totalConsumers_access fun _ => rfl
    · rfl
    · rfl
  cases hfault : q.fault with
  | true => simp [step,hfault]
  | false =>
    cases thread with
    | producer =>
      rw [step_producer q hfault]
      exact hproduce
    | consumer i =>
      cases hc : q.consumers[i]? with
      | none => rw [step_nobody q hc]
      | some c =>
        rw [step_consumer q hfault hc]
        exact hconsume i c

theorem inv_of_run (hpos : 0 < totalConsumers) (hfits : totalConsumers < 256) {act : Nat → SpmcThread}
    {st : Nat → SpmcQueue} (hstart : st 0 = start totalConsumers chunk rest)
    (hrun : ∀ n, st (n+1) = (st n).step (act n) ∧ (st n).Vacates (act n)) (n : Nat) :
    Inv (chunk :: rest) (st n) ∧ (st n).totalConsumers = totalConsumers := by
  induction n with
  | zero =>
    rw [hstart]
    exact ⟨inv_start hpos hfits chunk rest,rfl⟩
  | succ n ih =>
    rw [(hrun n).1]
    exact ⟨ih.1.step (hrun n).2,(totalConsumers_step _).trans ih.2⟩

/-- When each thread goes on again and again, they come to their end. -/
theorem exists_complete (hpos : 0 < totalConsumers) (hfits : totalConsumers < 256)
    {act : Nat → SpmcThread} {st : Nat → SpmcQueue} (hstart : st 0 = start totalConsumers chunk rest)
    (hrun : ∀ n, st (n+1) = (st n).step (act n) ∧ (st n).Vacates (act n))
    (hfair : ∀ thread, (start totalConsumers chunk rest).HasThread thread →
      ∀ n, ∃ m, n ≤ m ∧ act m = thread) :
    ∃ n, ∀ m, n ≤ m → Complete (chunk :: rest) (st m) := by
  have hinv := inv_of_run hpos hfits hstart hrun
  obtain ⟨n,hsettled⟩ := @exists_settled _ st (remaining (chunk :: rest).length) fun n => by
    rw [(hrun n).1]
    exact (hinv n).1.step_progress (act n)
  refine ⟨n,fun m hm => ?_⟩
  rw [hsettled m hm]
  refine (hinv n).1.complete fun thread hthread => ?_
  refine @settled_of_fair _ _ st (fun thread q => q.step thread) act _ n (fun n => (hrun n).1) hfair
    hsettled thread ?_
  cases thread with
  | producer => trivial
  | consumer i =>
    have hi : i < (st n).totalConsumers := hthread
    rw [(hinv n).2] at hi
    exact hi

theorem Inv.vacates_of_single (h : Inv chunks q) (hone : q.totalConsumers = 1) (thread : SpmcThread) :
    q.Vacates thread := by
  cases thread with
  | producer => trivial
  | consumer i =>
    intro c hc oldNode last hplace d hd
    obtain ⟨e,he⟩ := List.length_eq_one_iff.mp (h.number.trans hone)
    have hce : c = e := by
      rw [he] at hc
      exact List.mem_singleton.mp (List.mem_of_getElem? hc)
    have hde : d = e := by
      rw [he] at hd
      exact List.mem_singleton.mp hd
    rw [hde,← hce,ConsumerTask.reads,hplace]

theorem inv_of_single (hrun : Reachable next (fun _ _ => True) (start 1 chunk rest) q) :
    Inv (chunk :: rest) q ∧ q.totalConsumers = 1 := by
  refine @Reachable.invariant _ _ next _ _ _ (fun q => Inv (chunk :: rest) q ∧ q.totalConsumers = 1)
    ⟨inv_start (by decide) (by decide) chunk rest,rfl⟩ (fun q thread q' h _ hnext => ?_) hrun
  rw [← Option.some.inj hnext]
  exact ⟨h.1.step (h.1.vacates_of_single h.2 thread),(totalConsumers_step _).trans h.2⟩

end Runs

end SpmcQueue

end RootHelper
