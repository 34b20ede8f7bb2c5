import Mathlib.Init

/-!
The children of a process. A child has its number from its fork until a `wait` has returned for it, and
`wait` returns for any child that has come to its end.
-/

set_option autoImplicit false

namespace Posix

/-- What the child was forked for is said by `task`. -/
structure Child (β : Type) where
  pid : Nat
  task : β
  running : Bool
  deriving DecidableEq, Repr

namespace Child

variable {β : Type} {cs cs' : List (Child β)} {c : Child β} {pid : Nat} {task : β}

def fork (cs : List (Child β)) (pid : Nat) (task : β) : Option (List (Child β)) :=
  if 0 < pid ∧ ∀ c ∈ cs, c.pid ≠ pid then some (⟨pid,task,true⟩ :: cs) else none

/-- A child comes to its end, by itself or by a signal. -/
def exit (cs : List (Child β)) (pid : Nat) : Option (List (Child β)) :=
  if ∃ c ∈ cs, c.pid = pid ∧ c.running = true then
    some (cs.map fun c => if c.pid = pid then { c with running := false } else c)
  else none

/-- A `wait` returns for the child. -/
def wait (cs : List (Child β)) (pid : Nat) : Option (List (Child β)) :=
  if ∃ c ∈ cs, c.pid = pid ∧ c.running = false then some (cs.filter fun c => c.pid ≠ pid) else none

theorem fork_eq_some : fork cs pid task = some cs' ↔
    (0 < pid ∧ ∀ c ∈ cs, c.pid ≠ pid) ∧ cs' = ⟨pid,task,true⟩ :: cs := by
  unfold fork
  rw [Option.ite_none_right_eq_some,Option.some.injEq,eq_comm (a := cs')]

theorem wait_eq_some : wait cs pid = some cs' ↔
    (∃ c ∈ cs, c.pid = pid ∧ c.running = false) ∧ cs' = cs.filter fun c => c.pid ≠ pid := by
  unfold wait
  rw [Option.ite_none_right_eq_some,Option.some.injEq,eq_comm (a := cs')]

theorem exit_eq_some : exit cs pid = some cs' ↔ (∃ c ∈ cs, c.pid = pid ∧ c.running = true) ∧
    cs' = cs.map fun c => if c.pid = pid then { c with running := false } else c := by
  unfold exit
  rw [Option.ite_none_right_eq_some,Option.some.injEq,eq_comm (a := cs')]

theorem mem_of_fork (h : fork cs pid task = some cs') (hc : c ∈ cs') :
    c = ⟨pid,task,true⟩ ∨ c ∈ cs := by
  obtain ⟨_,rfl⟩ := fork_eq_some.mp h
  exact List.mem_cons.mp hc

theorem mem_of_wait (h : wait cs pid = some cs') (hc : c ∈ cs') : c ∈ cs ∧ c.pid ≠ pid := by
  obtain ⟨_,rfl⟩ := wait_eq_some.mp h
  simpa using hc

theorem mem_of_exit (h : exit cs pid = some cs') (hc : c ∈ cs') :
    ∃ c₀ ∈ cs, c.pid = c₀.pid ∧ c.task = c₀.task ∧ (c.running = true → c = c₀) := by
  obtain ⟨_,rfl⟩ := exit_eq_some.mp h
  obtain ⟨c₀,hc₀,rfl⟩ := List.mem_map.mp hc
  refine ⟨c₀,hc₀,?_⟩
  by_cases hpid : c₀.pid = pid
  · rw [if_pos hpid]
    exact ⟨rfl,rfl,fun hrun => by simp at hrun⟩
  · rw [if_neg hpid]
    exact ⟨rfl,rfl,fun _ => rfl⟩

theorem mem_exit_of_ne (h : exit cs pid = some cs') (hc : c ∈ cs) (hne : c.pid ≠ pid) : c ∈ cs' := by
  obtain ⟨_,rfl⟩ := exit_eq_some.mp h
  exact List.mem_map.mpr ⟨c,hc,if_neg hne⟩

/-- A number is positive, and stands for one child. -/
structure Numbered (cs : List (Child β)) : Prop where
  positive : ∀ c ∈ cs, 0 < c.pid
  one : ∀ c ∈ cs, ∀ c' ∈ cs, c.pid = c'.pid → c = c'

theorem Numbered.map {f : Child β → Child β} (hf : ∀ c, (f c).pid = c.pid) (h : Numbered cs) :
    Numbered (cs.map f) where
  positive c hc := by
    obtain ⟨c₀,hc₀,rfl⟩ := List.mem_map.mp hc
    rw [hf]
    exact h.positive c₀ hc₀
  one c hc c' hc' hsame := by
    obtain ⟨c₀,hc₀,rfl⟩ := List.mem_map.mp hc
    obtain ⟨c₀',hc₀',rfl⟩ := List.mem_map.mp hc'
    rw [hf,hf] at hsame
    rw [h.one c₀ hc₀ c₀' hc₀' hsame]

theorem Numbered.fork (h : Numbered cs) (hfork : Child.fork cs pid task = some cs') :
    Numbered cs' := by
  obtain ⟨⟨hpos,hnew⟩,rfl⟩ := fork_eq_some.mp hfork
  constructor
  · intro c hc
    rcases List.mem_cons.mp hc with rfl | hc
    · exact hpos
    · exact h.positive c hc
  · intro c hc c' hc' hsame
    rcases List.mem_cons.mp hc with rfl | hc <;> rcases List.mem_cons.mp hc' with rfl | hc'
    · rfl
    · exact absurd hsame.symm (hnew c' hc')
    · exact absurd hsame (hnew c hc)
    · exact h.one c hc c' hc' hsame

theorem Numbered.exit (h : Numbered cs) (hexit : Child.exit cs pid = some cs') : Numbered cs' := by
  obtain ⟨_,rfl⟩ := exit_eq_some.mp hexit
  refine h.map fun c => ?_
  split <;> rfl

theorem Numbered.wait (h : Numbered cs) (hwait : Child.wait cs pid = some cs') : Numbered cs' where
  positive c hc := h.positive c (mem_of_wait hwait hc).1
  one c hc c' hc' hsame := h.one c (mem_of_wait hwait hc).1 c' (mem_of_wait hwait hc').1 hsame

end Child
end Posix
