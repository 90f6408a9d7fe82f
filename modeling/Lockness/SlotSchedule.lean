import Lockness.PoolSchedule
import Lockness.SlotMachine

/-!
# Schedules of the slot

As for the bag: a configuration lists the handles and calls, and every schedule
that runs through is a run of the channel.
-/

set_option autoImplicit false

namespace Lockness.SlotSchedule
open Lockness.PoolRuns Lockness.PoolFutex Lockness.PoolSchedule
open Lockness.SlotWords Lockness.SlotMachine

variable {c : Target} {T : Type*}

structure Config (c : Target) (T : Type*) where
  inner : Inner c T
  senders : List ℕ
  receiver : Bool
  calls : List (Party c T)
  next : ℕ

inductive Command (T : Type*) where
  | act (i : ℕ)
  | call_send (i : ℕ) (blocking : Bool) (data : T)
  | call_recv (blocking : Bool)
  | clone_sender (i : ℕ)
  | drop_sender (i : ℕ)
  | drop_receiver

def Config.state (k : Config c T) : State c T where
  inner := k.inner
  senders := k.senders
  receiver := k.receiver
  calls := k.calls
  next := k.next

def start : Config c T := ⟨(mpsc : State c T).inner,[0],true,[],1⟩

def Config.receives (k : Config c T) : Bool :=
  k.receiver && k.calls.all (fun p => p.receives = false)

def exec (k : Config c T) : Command T → Option (Event T × Config c T)
  | .act i => (act (program c T) k.inner k.calls i).map (fun r =>
      (r.2.2,{ k with inner := r.1, calls := r.2.1 }))
  | .call_send i blocking data => k.senders[i]?.map (fun h =>
      (.sending k.next blocking data,{ k with
        calls := k.calls++[.send k.next blocking h (.attempt data)], next := k.next+1 }))
  | .call_recv blocking => if k.receives then some (.receiving k.next blocking,{ k with
      calls := k.calls++[.recv k.next blocking (.load 0)], next := k.next+1 }) else none
  | .clone_sender i => k.senders[i]?.bind (fun _ => (clone_sender k.inner).map (fun m =>
      (.tau,{ k with inner := m, senders := k.senders++[k.next], next := k.next+1 })))
  | .drop_sender i => k.senders[i]?.bind (fun h =>
      if k.calls.all (fun p => p.sender ≠ some h) then some (.tau,{ k with
        senders := k.senders.eraseIdx i, calls := k.calls++[.drop_sender .count] }) else none)
  | .drop_receiver => if k.receives then some (.tau,{ k with
      receiver := false, calls := k.calls++[.drop_receiver .raise] }) else none

theorem receives_spec {k : Config c T} (h : k.receives = true) :
    k.state.receiver = true ∧ ∀ p ∈ k.state.calls, p.receives = false := by
  rw [Config.receives, Bool.and_eq_true] at h
  refine ⟨h.1,fun p hp => ?_⟩
  simpa using List.all_eq_true.mp h.2 p hp

theorem exec_sound (k : Config c T) (a : Command T) (e : Event T) (k' : Config c T)
    (h : exec k a = some (e,k')) : Step k.state e k'.state := by
  cases a with
  | act i =>
    simp only [exec, Option.map_eq_some_iff, Prod.mk.injEq] at h
    obtain ⟨⟨m,l,e'⟩,ha,rfl,rfl⟩ := h
    exact .party (act_sound ha)
  | call_send i blocking data =>
    simp only [exec, Option.map_eq_some_iff, Prod.mk.injEq] at h
    obtain ⟨x,hx,rfl,rfl⟩ := h
    simp only [Config.state, coe_concat]
    exact .call_send (s := k.state) blocking data (List.mem_of_getElem? hx)
  | call_recv blocking =>
    simp only [exec] at h
    split at h <;> cases h
    rename_i hr
    obtain ⟨h1,h2⟩ := receives_spec hr
    simp only [Config.state, coe_concat]
    exact .call_recv (s := k.state) blocking h1 h2
  | clone_sender i =>
    simp only [exec, Option.bind_eq_some_iff, Option.map_eq_some_iff, Prod.mk.injEq] at h
    obtain ⟨x,hx,m,hc,rfl,rfl⟩ := h
    simp only [Config.state, coe_concat]
    exact .clone_sender (s := k.state) (List.mem_of_getElem? hx) hc
  | drop_sender i =>
    simp only [exec, Option.bind_eq_some_iff] at h
    obtain ⟨x,hx,h⟩ := h
    split at h <;> cases h
    rename_i hall
    simp only [Config.state, coe_concat]
    refine .drop_sender (s := k.state) (coe_getElem? hx) (fun p hp => ?_)
    simpa using List.all_eq_true.mp hall p hp
  | drop_receiver =>
    simp only [exec] at h
    split at h <;> cases h
    rename_i hr
    obtain ⟨h1,h2⟩ := receives_spec hr
    simp only [Config.state, coe_concat]
    exact .drop_receiver (s := k.state) h1 h2

theorem reaches (c : Target) (as : List (Command T)) (Q : List (Event T) → State c T → Prop)
    [∀ h s, Decidable (Q h s)]
    (hs : (script exec as start).any (fun r => decide (Q r.1 r.2.state)) = true) :
    ∃ (h : List (Event T)) (s : State c T), Steps Step mpsc h s ∧ Q h s :=
  script_reaches exec_sound start as Q hs

theorem reaches_when (c : Target) (ok : State c T → Event T → Prop) [∀ s e, Decidable (ok s e)]
    (as : List (Command T)) (Q : List (Event T) → State c T → Prop) [∀ h s, Decidable (Q h s)]
    (hs : (script (guarded exec (fun k e => ok k.state e)) as start).any
      (fun r => decide (Q r.1 r.2.state)) = true) :
    ∃ (h : List (Event T)) (s : State c T), Steps (When Step ok) mpsc h s ∧ Q h s :=
  script_reaches (guarded_sound exec_sound (fun _ _ he => of_decide_eq_true he)) start as Q hs

end Lockness.SlotSchedule
