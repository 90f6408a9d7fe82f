import Lockness.PoolSchedule
import Lockness.BagMachine

/-!
# Schedules of the bag

A configuration lists the handles and calls that a state only collects, so
that a schedule can name them by position. Every schedule that runs through is
a run of the channel.
-/

set_option autoImplicit false

namespace Lockness.BagSchedule
open Lockness.PoolRuns Lockness.PoolFutex Lockness.PoolSchedule Lockness.BagMachine

variable {T : Type*}

structure Config (T : Type*) where
  inner : Inner T
  senders : List Sender
  receivers : List ℕ
  calls : List (Party T)
  next : ℕ

inductive Command (T : Type*) where
  | act (i : ℕ)
  | call_send (i : ℕ) (blocking : Bool) (data : SendBuffer T)
  | call_recv (i : ℕ) (blocking : Bool)
  | clone_sender (i : ℕ)
  | clone_receiver (i : ℕ)
  | drop_sender (i : ℕ)
  | drop_receiver (i : ℕ)

def Config.state (k : Config T) : State T where
  inner := k.inner
  senders := k.senders
  receivers := k.receivers
  calls := k.calls
  next := k.next

def start : Config T := ⟨(mpmc : State T).inner,[⟨0,0⟩],[0],[],1⟩

def exec (c : Target T) (k : Config T) : Command T → Option (Event T × Config T)
  | .act i => (act (program c) k.inner k.calls i).map (fun r =>
      (r.2.2,{ k with inner := r.1, calls := r.2.1 }))
  | .call_send i blocking data => k.senders[i]?.map (fun h =>
      (.sending k.next blocking data,{ k with
        calls := k.calls++[.send k.next blocking h (try_send h data)], next := k.next+1 }))
  | .call_recv i blocking => k.receivers[i]?.map (fun h =>
      (.receiving k.next blocking,{ k with
        calls := k.calls++[.recv k.next blocking h .claim], next := k.next+1 }))
  | .clone_sender i => k.senders[i]?.bind (fun _ => match clone_sender c k.inner with
      | .ok m bias => some (.tau,{ k with
          inner := m, senders := k.senders++[⟨k.next,bias⟩], next := k.next+1 })
      | _ => none)
  | .clone_receiver i => k.receivers[i]?.bind (fun _ => (clone_receiver k.inner).map (fun m =>
      (.tau,{ k with inner := m, receivers := k.receivers++[k.next], next := k.next+1 })))
  | .drop_sender i => k.senders[i]?.bind (fun h =>
      if k.calls.all (fun p => p.sender ≠ some h) then some (.tau,{ k with
        senders := k.senders.eraseIdx i, calls := k.calls++[.drop_sender .count] }) else none)
  | .drop_receiver i => k.receivers[i]?.bind (fun h =>
      if k.calls.all (fun p => p.receiver ≠ some h) then some (.tau,{ k with
        receivers := k.receivers.eraseIdx i, calls := k.calls++[.drop_receiver .count] }) else none)

theorem exec_sound {c : Target T} (k : Config T) (a : Command T) (e : Event T) (k' : Config T)
    (h : exec c k a = some (e,k')) : Step c k.state e k'.state := by
  cases a with
  | act i =>
    simp only [exec, Option.map_eq_some_iff, Prod.mk.injEq] at h
    obtain ⟨⟨m,l,e'⟩,ha,rfl,rfl⟩ := h
    exact .party (act_sound ha)
  | call_send i blocking data =>
    simp only [exec, Option.map_eq_some_iff, Prod.mk.injEq] at h
    obtain ⟨x,hx,rfl,rfl⟩ := h
    simp only [Config.state, coe_concat]
    exact .call_send (s := k.state) blocking data (List.mem_of_getElem? hx)
  | call_recv i blocking =>
    simp only [exec, Option.map_eq_some_iff, Prod.mk.injEq] at h
    obtain ⟨x,hx,rfl,rfl⟩ := h
    simp only [Config.state, coe_concat]
    exact .call_recv (s := k.state) blocking (List.mem_of_getElem? hx)
  | clone_sender i =>
    simp only [exec, Option.bind_eq_some_iff] at h
    obtain ⟨x,hx,h⟩ := h
    split at h <;> cases h
    rename_i hc
    simp only [Config.state, coe_concat]
    exact .clone_sender (s := k.state) (List.mem_of_getElem? hx) hc
  | clone_receiver i =>
    simp only [exec, Option.bind_eq_some_iff, Option.map_eq_some_iff, Prod.mk.injEq] at h
    obtain ⟨x,hx,m,hc,rfl,rfl⟩ := h
    simp only [Config.state, coe_concat]
    exact .clone_receiver (s := k.state) (List.mem_of_getElem? hx) hc
  | drop_sender i =>
    simp only [exec, Option.bind_eq_some_iff] at h
    obtain ⟨x,hx,h⟩ := h
    split at h <;> cases h
    rename_i hall
    simp only [Config.state, coe_concat]
    refine .drop_sender (s := k.state) (coe_getElem? hx) (fun p hp => ?_)
    simpa using List.all_eq_true.mp hall p hp
  | drop_receiver i =>
    simp only [exec, Option.bind_eq_some_iff] at h
    obtain ⟨x,hx,h⟩ := h
    split at h <;> cases h
    rename_i hall
    simp only [Config.state, coe_concat]
    refine .drop_receiver (s := k.state) (coe_getElem? hx) (fun p hp => ?_)
    simpa using List.all_eq_true.mp hall p hp

theorem reaches {c : Target T} (as : List (Command T)) (Q : List (Event T) → State T → Prop)
    [∀ h s, Decidable (Q h s)]
    (hs : (script (exec c) as start).any (fun r => decide (Q r.1 r.2.state)) = true) :
    ∃ (h : List (Event T)) (s : State T), Steps (Step c) mpmc h s ∧ Q h s :=
  script_reaches exec_sound start as Q hs

theorem reaches_when {c : Target T} (ok : State T → Event T → Prop)
    [∀ s e, Decidable (ok s e)] (as : List (Command T)) (Q : List (Event T) → State T → Prop)
    [∀ h s, Decidable (Q h s)]
    (hs : (script (guarded (exec c) (fun k e => ok k.state e)) as start).any
      (fun r => decide (Q r.1 r.2.state)) = true) :
    ∃ (h : List (Event T)) (s : State T), Steps (When (Step c) ok) mpmc h s ∧ Q h s :=
  script_reaches (guarded_sound exec_sound (fun _ _ he => of_decide_eq_true he)) start as Q hs

end Lockness.BagSchedule
