import Lockness.BagHandles

/-!
# One send under arbitrary interference

A single call is followed through its own steps; before each of them the rest
of the channel may have changed the shared memory in any way. A send that
succeeds has reserved some slots in one `fetch_or`, stored the last values of
its buffer in exactly these, and committed them; a send that fails has done
nothing but ask.
-/

set_option autoImplicit false

namespace Lockness.BagAttempt
open Lockness.PoolRuns Lockness.PoolFutex Lockness.PoolSlots Lockness.WordBits Lockness.BagMasks
open Lockness.BagRequest Lockness.BagMachine Lockness.BagMoves Lockness.BagInversion

variable {T : Type*}

/-- One step of a call: the memory it met, its event and the memory it left. -/
structure Touch (T : Type*) where
  before : Inner T
  event : Event T
  after : Inner T

/-- The steps of one call on a memory that nothing ties to the step before. -/
inductive Own (c : Target T) : Party T → Touch T → Party T → Prop
  | go {m m' : Inner T} {p p' : Party T} {e : Event T} : code c m p = .go m' p' e →
      Own c p ⟨m,e,m'⟩ p'
  | wake {m : Inner T} {p p' : Party T} {w : Futex} {n : ℕ} : code c m p = .wake w n p' →
      Own c p ⟨m,.tau,m⟩ p'
  | woken {m : Inner T} {p p' : Party T} {w : Futex} : woken w p = some p' →
      Own c p ⟨m,.tau,m⟩ p'

/-- Nothing is taken, committed or stored in a slot. -/
def Idle (k : List (Touch T)) : Prop := ∀ t ∈ k, t.event = .tau ∧ t.after.bag = t.before.bag

structure Reserves (t : Touch T) (reserved : Word) : Prop where
  event : t.event = .tau
  alive : dead t.before.send = false
  free : Disjoint (slots (N := 30) reserved) (slots t.before.send)
  word : slots (N := 30) t.after.send = slots t.before.send ∪ slots reserved
  bag : t.after.bag = t.before.bag

def Writes (t : Touch T) (a : Slot × T) : Prop :=
  t.event = .take a.2 ∧
    t.after = { t.before with bag := Function.update t.before.bag a.1 (some a.2) }

structure Commits (t : Touch T) (reserved : Word) : Prop where
  event : t.event = .commit (cells t.before.bag (slots reserved))
  word : slots (N := 30) t.after.recv = slots t.before.recv ∪ slots reserved
  bag : t.after.bag = t.before.bag

structure Filling (items : List T) (k : List (Touch T)) (reserved todo : Word) (left : List T)
    (stored : List (Slot × T)) : Prop where
  values : items = left++(stored.map Prod.snd).reverse
  distinct : (stored.map Prod.fst).Nodup
  filled : (stored.map Prod.fst).toFinset = slots (N := 30) reserved \ slots todo
  within : slots (N := 30) todo ⊆ slots reserved
  popcount : count_ones reserved = (slots (N := 30) reserved).card
  won : (slots (N := 30) reserved).Nonempty
  steps : ∃ pre t ws, k = pre++t::ws ∧ Idle pre ∧ Reserves t reserved ∧
    List.Forall₂ Writes ws stored

/-- A send of `items` that has committed what it has won, leaving `kept` in its buffer. -/
structure Delivered (c : Target T) (p : Party T) (items : List T) (k : List (Touch T))
    (reserved : Word) (stored : List (Slot × T)) (kept : List T) : Prop where
  values : items = kept++(stored.map Prod.snd).reverse
  distinct : (stored.map Prod.fst).Nodup
  filled : (stored.map Prod.fst).toFinset = slots (N := 30) reserved
  popcount : stored.length = count_ones reserved
  positive : 0 < stored.length
  steps : ∃ pre t ws y post, k = pre++t::ws++y::post ∧ Idle pre ∧ Reserves t reserved ∧
    List.Forall₂ Writes ws stored ∧ Commits y reserved ∧ Idle post ∧
    ∃ id b h data todo, data.contents = kept ∧
      Steps (Own c) p (pre++t::ws) (.send id b h (.write data reserved todo))

section Idle

variable {k l : List (Touch T)} {t : Touch T}

theorem idle_nil : Idle ([] : List (Touch T)) := fun _ h => absurd h List.not_mem_nil

theorem Idle.concat (hk : Idle k) (he : t.event = .tau) (hb : t.after.bag = t.before.bag) :
    Idle (k++[t]) := by
  intro u hu
  rcases List.mem_append.mp hu with hu | hu
  · exact hk u hu
  · rw [List.mem_singleton.mp hu]
    exact ⟨he,hb⟩

end Idle

section Filling

variable {items left : List T} {k : List (Touch T)} {reserved todo todo' : Word}
  {stored : List (Slot × T)} {t : Touch T}

theorem Filling.start (hk : Idle k) (ht : Reserves t reserved) (hb : Bare reserved)
    (hne : (slots (N := 30) reserved).Nonempty) :
    Filling items (k++[t]) reserved reserved items [] where
  values := by simp
  distinct := List.nodup_nil
  filled := by simp
  within := subset_rfl
  popcount := count_ones_of_bare hb
  won := hne
  steps := ⟨k,t,[],rfl,hk,ht,.nil⟩

theorem Filling.write {i : Slot} {v : T} (hf : Filling items k reserved todo (left++[v]) stored)
    (hi : i ∈ slots (N := 30) todo) (ht : slots (N := 30) todo' = (slots todo).erase i)
    (hw : Writes t (i,v)) : Filling items (k++[t]) reserved todo' left (stored++[(i,v)]) := by
  have hnew : i ∉ (stored.map Prod.fst).toFinset := by
    rw [hf.filled]
    simp only [Finset.mem_sdiff, hi, not_true, and_false, not_false_iff]
  constructor
  · rw [hf.values]
    simp
  · rw [List.map_append, List.nodup_append']
    refine ⟨hf.distinct,by simp,?_⟩
    simpa [List.disjoint_singleton] using hnew
  · rw [List.map_append, List.toFinset_append, hf.filled, ht]
    ext j
    by_cases hj : j = i
    · subst hj
      simpa using hf.within hi
    · simp [hj]
  · rw [ht]
    exact (Finset.erase_subset _ _).trans hf.within
  · exact hf.popcount
  · exact hf.won
  · obtain ⟨pre,u,ws,rfl,hpre,hu,hws⟩ := hf.steps
    exact ⟨pre,u,ws++[t],by simp,hpre,hu,List.rel_append hws (.cons hw .nil)⟩

theorem Filling.length (hf : Filling items k reserved todo left stored)
    (h0 : slots (N := 30) todo = ∅) : stored.length = count_ones reserved := by
  rw [hf.popcount, ← List.length_map (f := Prod.fst), ← List.toFinset_card_of_nodup hf.distinct,
    hf.filled, h0, Finset.sdiff_empty]

end Filling

section Own

variable {c : Target T} {p q : Party T} {id : ℕ} {b : Bool} {h : Sender} {d : SendBuffer T}
  {pc pc' : SendPc T} {k : List (Touch T)} {t : Touch T} {m m' : Inner T} {e : Event T}

theorem Delivered.concat {items kept : List T} {reserved : Word} {stored : List (Slot × T)}
    (hd : Delivered c p items k reserved stored kept) (he : t.event = .tau)
    (hb : t.after.bag = t.before.bag) : Delivered c p items (k++[t]) reserved stored kept := by
  refine ⟨hd.values,hd.distinct,hd.filled,hd.popcount,hd.positive,?_⟩
  obtain ⟨pre,u,ws,y,post,rfl,hpre,hu,hws,hy,hpost,hrun⟩ := hd.steps
  exact ⟨pre,u,ws,y,post++[t],by simp,hpre,hu,hws,hy,hpost.concat he hb,hrun⟩

theorem Filling.commit {items : List T} {data : Container T} {reserved todo : Word}
    {stored : List (Slot × T)} (hf : Filling items k reserved todo data.contents stored)
    (h0 : slots (N := 30) todo = ∅) (hy : Commits t reserved)
    (hrun : Steps (Own c) p k (.send id b h (.write data reserved todo))) :
    Delivered c p items (k++[t]) reserved stored data.contents := by
  have hlen := hf.length h0
  refine ⟨hf.values,hf.distinct,by rw [hf.filled, h0, Finset.sdiff_empty],hlen,?_,?_⟩
  · rw [hlen, hf.popcount]
    exact Finset.card_pos.mpr hf.won
  · obtain ⟨pre,u,ws,rfl,hpre,hu,hws⟩ := hf.steps
    exact ⟨pre,u,ws,t,[],rfl,hpre,hu,hws,hy,idle_nil,_,_,_,data,todo,rfl,hrun⟩

def Told (c : Target T) (p : Party T) (d : SendBuffer T) (k : List (Touch T)) : SendPc T → Prop
  | .write data reserved todo =>
    ∃ stored, Filling d.contents k reserved todo data.contents stored
  | .wake => ∃ reserved stored kept, Delivered c p d.contents k reserved stored kept
  | .done r => r = .ok ∧ (∃ reserved stored kept, Delivered c p d.contents k reserved stored kept) ∨
      r ≠ .ok ∧ Idle k
  | _ => Idle k

theorem told_try_send (hd : d.contents ≠ []) (hk : Idle k) : Told c p d k (try_send h d) := by
  rcases try_send_spec h d with ⟨h0,-⟩ | ⟨-,data,-,ht⟩
  · exact absurd h0 hd
  · rw [ht]
    exact hk

theorem reserved_bare {items : ℕ} {data data' : Container T} {mask reserved todo : Word}
    (hm : Bare mask) (hc : code c m (.send id b h (.reserve items data mask)) =
      .go m' (.send id b h (.write data' reserved todo)) e) : Bare reserved := by
  simp only [code, send_code, try_send_reserve] at hc
  repeat' split at hc
  all_goals simp only [Outcome.go.injEq, Party.send.injEq, reduceCtorEq, false_and, and_false,
    true_and, SendPc.write.injEq] at hc
  obtain ⟨-,⟨-,rfl,-⟩,-⟩ := hc
  exact hm.and_left _

theorem told_move (hd : d.contents ≠ []) (hok : SendOk b d pc)
    (hrun : Steps (Own c) p k (.send id b h pc)) (hk : Told c p d k pc)
    (hc : code c m (.send id b h pc) = .go m' (.send id b h pc') e)
    (hm : SendMove m b h pc m' pc' e) : Told c p d (k++[⟨m,e,m'⟩]) pc' := by
  cases hm with
  | refuse => exact .inr ⟨by split <;> simp,hk.concat rfl rfl⟩
  | full =>
    split
    · exact hk.concat rfl rfl
    · exact .inr ⟨by simp,hk.concat rfl rfl⟩
  | reserve ha hs hne hw =>
    have hbare := reserved_bare hok.2.2.2.1 hc
    refine ⟨[],?_⟩
    rw [hok.1.2]
    refine .start hk ⟨rfl,ha,?_,hw,rfl⟩ hbare hne
    rw [hs]
    exact Finset.sdiff_disjoint
  | retry => exact hk.concat rfl rfl
  | @write data data' reserved todo todo' i v hi ht htake =>
    obtain ⟨stored,hf⟩ := hk
    rw [take_spec htake] at hf
    exact ⟨_,hf.write hi ht ⟨rfl,rfl⟩⟩
  | @commit data reserved todo w h0 hw =>
    obtain ⟨stored,hf⟩ := hk
    have hdone : Delivered c p d.contents (k++[⟨m,.commit (cells m.bag (slots reserved)),
        { m with recv := w }⟩]) reserved stored data.contents :=
      hf.commit h0 ⟨rfl,hw,rfl⟩ hrun
    split
    · exact ⟨_,_,_,hdone⟩
    · exact .inl ⟨rfl,_,_,_,hdone⟩
  | @spin data spin pc w hs hdead hsl hcase =>
    have hidle : Idle (k++[⟨m,.tau,{ m with send := w }⟩]) := hk.concat rfl rfl
    rcases hcase with ⟨-,rfl⟩ | ⟨-,-,rfl⟩ | ⟨-,-,-,rfl⟩ | ⟨-,rfl⟩
    · rw [hok.2.1]
      exact told_try_send hd hidle
    · exact .inr ⟨by simp,hidle⟩
    · exact hidle
    · exact hidle
  | sleep => exact hk.concat rfl rfl
  | miss => exact hk.concat rfl rfl
  | rearm =>
    rw [hok.2.1]
    exact told_try_send hd (hk.concat rfl rfl)

theorem own_told (hb : h.bias < 30) (hd : d.contents ≠ []) (hok : SendOk b d pc)
    (hrun : Steps (Own c) p k (.send id b h pc)) (hk : Told c p d k pc)
    (ho : Own c (.send id b h pc) t q) :
    ∃ pc', q = .send id b h pc' ∧ SendOk b d pc' ∧ Told c p d (k++[t]) pc' := by
  cases ho with
  | go hc =>
    cases code_moves (p := .send id b h pc) ⟨hb,d,hok⟩ hc with
    | send hm => exact ⟨_,rfl,send_move_ok hok hb hm,told_move hd hok hrun hk hc hm⟩
    | drop hm => cases hm
  | wake hc =>
    cases code_wakes hc
    obtain ⟨_,_,_,hdone⟩ := hk
    exact ⟨_,rfl,.inl rfl,.inl ⟨rfl,_,_,_,hdone.concat rfl rfl⟩⟩
  | woken hw =>
    rcases woken_cases hw with ⟨_,_,_,_,rfl,hp,rfl⟩ | ⟨_,_,_,_,hp,_⟩
    · cases hp
      exact ⟨_,rfl,hok,hk.concat rfl rfl⟩
    · cases hp

theorem told_run (hb : h.bias < 30) (hd : d.contents ≠ [])
    (hrun : Steps (Own c) (.send id b h (try_send h d)) k q) :
    ∃ pc, q = .send id b h pc ∧ SendOk b d pc ∧
      Told c (.send id b h (try_send h d)) d k pc := by
  refine hrun.carries (fun k q => ∃ pc, q = .send id b h pc ∧ SendOk b d pc ∧
    Told c (.send id b h (try_send h d)) d k pc) ?_ ?_
  · exact ⟨_,rfl,try_send_ok hb b d,told_try_send hd idle_nil⟩
  · rintro k u t v hr ⟨pc,rfl,hok,ht⟩ ho
    exact own_told hb hd hok hr ht ho

/-- A send of one value or more that ends well has stored the last values of its
buffer, one for each bit it won, and one that fails has done nothing. Nothing on
the way is undefined. -/
theorem try_send_all_or_nothing (hb : h.bias < 30) (hd : d.contents ≠ [])
    (hrun : Steps (Own c) (.send id b h (try_send h d)) k q) :
    (∀ m, code c m q ≠ .ub) ∧ ∀ r, q = .send id b h (.done r) →
      (r = .ok ∧ ∃ reserved stored kept,
        Delivered c (.send id b h (try_send h d)) d.contents k reserved stored kept ∧
          stored.length ≤ d.contents.length) ∨
      (b = false ∧ (r = .full d ∨ r = .disconnected d) ∨ b = true ∧ r = .send_error d) ∧
        Idle k := by
  obtain ⟨pc,rfl,hok,ht⟩ := told_run hb hd hrun
  refine ⟨fun m => send_defined hok,?_⟩
  rintro r hr
  cases hr
  rcases ht with ⟨rfl,reserved,stored,kept,hdel⟩ | ⟨hne,hidle⟩
  · refine .inl ⟨rfl,reserved,stored,kept,hdel,?_⟩
    rw [hdel.values]
    simp
  · refine .inr ⟨?_,hidle⟩
    rcases hok with hr | ⟨-,⟨hbl,hr⟩ | hr⟩
    · exact absurd hr hne
    · exact .inl ⟨hbl,.inl hr⟩
    · cases b
      · exact .inl ⟨rfl,.inr hr⟩
      · exact .inr ⟨rfl,hr⟩

def met (send recv : Word) (bag : Slot → Option ℕ) : Inner ℕ :=
  { (mpmc : State ℕ).inner with send := send, recv := recv, bag := bag }

/-- Three values are sent, the second slot of the window is taken. Meanwhile others reserve and
free slots, and a receiver goes to sleep. -/
theorem try_send_all_or_nothing_vec : ∃ k, Steps (Own .release)
    (.send 1 false ⟨0,0⟩ (try_send ⟨0,0⟩ (.vec [5,6,7]))) k (.send 1 false ⟨0,0⟩ (.done .ok)) ∧
    k.map Touch.event = [.tau,.take 7,.take 6,.commit {7,6},.tau] ∧
    ∃ reserved stored kept, Delivered .release
      (.send 1 false ⟨0,0⟩ (try_send ⟨0,0⟩ (.vec [5,6,7]))) [5,6,7] k reserved stored kept := by
  have h₁ : Own .release (.send 1 false ⟨0,0⟩ (try_send ⟨0,0⟩ (.vec [5,6,7]))) _ _ :=
    .go (m := met 0x40000000#32 3#32 fun _ => none) rfl
  have h₂ := (Steps.single h₁).next (.go (m := met 0xF0000000#32 3#32 fun _ => none) rfl)
  have h₃ := h₂.next (.go (m := met 0xA0000000#32 3#32 (Function.update (fun _ => none) 0
    (some 7))) rfl)
  have h₄ := h₃.next (.go (m := met 0xA0000000#32 1#32 (Function.update
    (Function.update (fun _ => none) 0 (some 7)) 2 (some 6))) rfl)
  have hrun := h₄.next (.wake (m := met 0xA0000000#32 0xA0000003#32 fun _ => none) rfl)
  refine ⟨_,hrun,rfl,?_⟩
  rcases (try_send_all_or_nothing (by decide) (by decide) hrun).2 _ rfl with
    ⟨-,reserved,stored,kept,hdel,-⟩ | ⟨hr,-⟩
  · exact ⟨reserved,stored,kept,hdel⟩
  · simp at hr

end Own

end Lockness.BagAttempt
