import Lockness.BagDisconnect
import Lockness.BagTrace

/-!
# The reservation loop makes progress

A later request names slots that were free a moment ago. It fails only where
somebody else has reserved them since, so the others' successes pay for the
repetitions, and a call ends in every run in which they are finitely many.
-/

set_option autoImplicit false

namespace Lockness.BagProgress
open Lockness.PoolRuns Lockness.PoolFutex Lockness.BagMasks Lockness.BagRequest Lockness.BagMachine
open Lockness.BagMoves Lockness.BagInversion Lockness.BagHandles Lockness.BagNumbers
open Lockness.BagDisconnect Lockness.BagTrace

variable {T : Type*}

/-- One `fetch_or` of a reservation loop: whose it is, what it asks for and the
word it returns. -/
structure Fetch where
  id : ℕ
  mask : Word
  prev : Word

def Fetch.Wins (f : Fetch) : Prop :=
  dead f.prev = false ∧ 0 < ~~~(f.prev ||| Status.all) &&& f.mask

/-- It reserves nothing and the call returns neither `Full` nor `Disconnected`. -/
def Fetch.Retries (f : Fetch) : Prop :=
  dead f.prev = false ∧ f.prev ||| Status.all ≠ u32_MAX ∧
    ¬ 0 < ~~~(f.prev ||| Status.all) &&& f.mask

instance (f : Fetch) : Decidable f.Wins := inferInstanceAs (Decidable (_ ∧ _))

def fetch : Mark T → Option Fetch
  | (_,some (m,.send id _ _ (.reserve _ _ mask))) => some ⟨id,mask,m.send⟩
  | _ => none

def owner (x : Mark T) : Option ℕ := x.2.bind (fun a => call a.2)

/-- The steps of call `n`, its `fetch_or`s, and the reservations of the others. -/
def own (n : ℕ) (l : List (Mark T)) : ℕ := l.countP (fun x => owner x = some n)

def fetches (n : ℕ) (l : List (Mark T)) : ℕ := (l.filterMap fetch).countP (fun f => f.id = n)

def others (n : ℕ) (l : List (Mark T)) : ℕ :=
  (l.filterMap fetch).countP (fun f => f.id ≠ n ∧ f.Wins)

def trying : Party T → Bool
  | .send _ _ _ (.reserve _ _ _) => true
  | .send _ _ _ (.write _ _ _) => true
  | .send _ _ _ .wake => true
  | .send _ _ _ (.done _) => true
  | _ => false

/-- Whatever call `n` does is part of one `try_send`. -/
def OneAttempt (n : ℕ) (l : List (Mark T)) : Prop :=
  ∀ x ∈ l, ∀ m p, x.2 = some (m,p) → call p = some n → trying p = true

variable {c : Target T} {h : List (Event T)} {s t : State T} {x : Mark T} {l : List (Mark T)}
  {p q : Party T} {n : ℕ} {f : Fetch}

theorem fetch_some (hf : fetch x = some f) : ∃ b k items data m, x.2 =
    some (m,.send f.id b k (.reserve items data f.mask)) ∧ m.send = f.prev := by
  unfold fetch at hf
  split at hf
  · cases hf
    exact ⟨_,_,_,_,_,rfl,rfl⟩
  · cases hf

theorem fetch_owner (hf : fetch x = some f) : owner x = some f.id := by
  obtain ⟨_,_,_,_,_,hx,-⟩ := fetch_some hf
  rw [owner, hx]
  rfl

theorem Fetch.wins_iff (hm : Bare f.mask) : f.Wins ↔
    dead f.prev = false ∧ (slots (N := 30) f.mask \ slots f.prev).Nonempty := by
  have hs : slots (N := 30) (~~~(f.prev ||| Status.all) &&& f.mask) =
      slots f.mask \ slots f.prev := by
    ext i
    simp [and_comm]
  rw [Fetch.Wins, (hm.and_left _).pos_iff, hs]

theorem Fetch.retries_iff (hm : Bare f.mask) : f.Retries ↔ dead f.prev = false ∧
    slots (N := 30) f.prev ≠ Finset.univ ∧ slots (N := 30) f.mask ⊆ slots f.prev := by
  have hw := Fetch.wins_iff hm
  rw [Fetch.Wins, and_congr_right_iff] at hw
  rw [Fetch.Retries, Ne, full_iff]
  constructor
  · rintro ⟨hd,hu,hp⟩
    rw [hw hd, Finset.not_nonempty_iff_eq_empty, Finset.sdiff_eq_empty_iff_subset] at hp
    exact ⟨hd,hu,hp⟩
  · rintro ⟨hd,hu,hp⟩
    rw [hw hd, Finset.not_nonempty_iff_eq_empty, Finset.sdiff_eq_empty_iff_subset]
    exact ⟨hd,hu,hp⟩

theorem acts_mem (ha : Acts c s p t) : p ∈ s.calls := by
  cases ha with
  | go hs => simp [hs]
  | wake hs => simp [hs]
  | exit hs => simp [hs]

theorem traced_acts {m : Inner T} (hx : Traced c s x t) (hx2 : x.2 = some (m,p)) :
    m = s.inner ∧ Acts c s p t := by
  cases hx with
  | other => cases hx2
  | acts hs ha =>
    simp only [Option.some.injEq, Prod.mk.injEq] at hx2
    obtain ⟨rfl,rfl⟩ := hx2
    exact ⟨rfl,ha⟩

theorem traced_cases (hrun : Steps (Step c) mpmc h s) (hn : n < s.next) (hx : Traced c s x t) :
    (∃ p, x.2 = some (s.inner,p) ∧ call p = some n ∧ Acts c s p t) ∨
    owner x ≠ some n ∧ ∀ q ∈ t.calls, call q = some n →
      ∃ r ∈ s.calls, r = q ∨ ∃ w, woken w r = some q := by
  cases hx with
  | @acts _ e p hs ha =>
    by_cases hp : call p = some n
    · exact .inl ⟨p,rfl,hp,ha⟩
    · have hok := (handles_run hrun).ok p (acts_mem ha)
      exact .inr ⟨hp,fun q hq hcall => acts_other ha hok hp hq hcall⟩
  | other hs ha => exact .inr ⟨by simp [owner],(idle_step hs ha).2 hn⟩

theorem traced_word (hrun : Steps (Step c) mpmc h s) (hx : Traced c s x t) :
    (∃ f, fetch x = some f ∧ f.Wins) ∨ dead t.inner.send = true ∨
      slots (N := 30) t.inner.send ⊆ slots s.inner.send := by
  cases hx with
  | other hs ha => exact .inr (.inr (by rw [(idle_step (n := 0) hs ha).1]))
  | @acts _ e p hs ha =>
    have hok := (handles_run hrun).ok p (acts_mem ha)
    cases ha with
    | wake => exact .inr (.inr subset_rfl)
    | exit _ hc =>
      rw [show _ = s.inner.send from (exit_raises (code_exits hc)).1]
      exact .inr (.inr subset_rfl)
    | go _ hc =>
      cases code_moves hok hc with
      | send hm =>
        obtain ⟨-,d,hd⟩ := hok
        cases hm with
        | refuse _ _ _ _ hdw => exact .inr (.inl hdw)
        | reserve ho hres hne =>
          exact .inl ⟨_,rfl,(Fetch.wins_iff hd.2.2.2.1).mpr ⟨ho,hres ▸ hne⟩⟩
        | spin hw => exact .inr (.inr hw.le)
        | rearm hw => exact .inr (.inr hw.le)
        | _ => exact .inr (.inr subset_rfl)
      | recv hm =>
        cases hm with
        | release _ hw => exact .inr (.inr (by rw [hw]; exact Finset.sdiff_subset))
        | _ => exact .inr (.inr subset_rfl)
      | drop hm =>
        cases hm with
        | receiver_raise hw => exact .inr (.inr hw.le)
        | _ => exact .inr (.inr subset_rfl)

theorem traced_dead (hrun : Steps (Step c) mpmc h s) (hx : Traced c s x t)
    (hd : dead s.inner.send = true) : dead t.inner.send = true := by
  rw [(step_dead (handles_run hrun) hx.step).2, hd, Bool.true_or]

theorem free_step {mask : Word} (hrun : Steps (Step c) mpmc h s) (hx : Traced c s x t)
    (hfree : dead s.inner.send = true ∨ Disjoint (slots (N := 30) mask) (slots s.inner.send)) :
    (∃ f, fetch x = some f ∧ f.Wins) ∨ dead t.inner.send = true ∨
      Disjoint (slots (N := 30) mask) (slots t.inner.send) := by
  rcases hfree with hd | hdisj
  · exact .inr (.inl (traced_dead hrun hx hd))
  · rcases traced_word hrun hx with hwin | hd | hsub
    · exact .inl hwin
    · exact .inr (.inl hd)
    · exact .inr (.inr (Finset.disjoint_of_subset_right hsub hdisj))

theorem own_moves (hrun : Steps (Step c) mpmc h s) {b : Bool} {k : Sender} {pc : SendPc T}
    (ha : Acts c s (.send n b k pc) t) (hq : q ∈ t.calls) (hcall : call q = some n) :
    ∃ pc', q = .send n b k pc' ∧ (pc = .wake ∧ pc' = .done .ok ∨
      ∃ d e, SendOk b d pc ∧ SendMove s.inner b k pc t.inner pc' e) := by
  obtain ⟨hb,d,hd⟩ := (handles_run hrun).ok _ (acts_mem ha)
  obtain ⟨e,-,⟨w,j,hc,-⟩ | hc⟩ := acts_own hrun ha rfl hq hcall
  · cases code_wakes hc
    exact ⟨_,rfl,.inl ⟨rfl,rfl⟩⟩
  · cases code_moves (p := .send n b k pc) ⟨hb,d,hd⟩ hc with
    | send hm => exact ⟨_,rfl,.inr ⟨d,e,hd,hm⟩⟩
    | drop hm => cases hm

theorem clear_extra_bits_free (w : Word) (max : ℕ) (d : Bool) :
    slots (N := 30) (clear_extra_bits (~~~(w ||| Status.all)) max d) ⊆ (slots w)ᶜ := by
  refine (clear_extra_bits_subset _ _ _).trans ?_
  simp

structure Retried (f : Fetch) (mask : Word) : Prop where
  bare : Bare mask
  nonempty : (slots (N := 30) mask).Nonempty
  free : slots (N := 30) mask ⊆ (slots f.prev)ᶜ

theorem retried_step (hrun : Steps (Step c) mpmc h s) (hx : Traced c s x t) (hf : fetch x = some f)
    (hr : f.Retries) (hq : q ∈ t.calls) (hcall : call q = some f.id) :
    t.inner.send = f.prev ∧ ∃ b k items data mask,
      q = .send f.id b k (.reserve items data mask) ∧ Retried f mask := by
  obtain ⟨b,k,items,data,m,hx2,hm⟩ := fetch_some hf
  obtain ⟨rfl,ha⟩ := traced_acts hx hx2
  obtain ⟨pc',rfl,⟨h0,-⟩ | ⟨d,e,hd,hmove⟩⟩ := own_moves hrun ha hq hcall
  · cases h0
  have hbare := hd.2.2.2.1
  obtain ⟨ho,hu,hsub⟩ := (Fetch.retries_iff hbare).mp hr
  rw [← hm] at ho hu hsub
  generalize ht : t.inner = m' at hmove
  cases hmove with
  | refuse _ hdead => exact absurd (ho.symm.trans hdead) (by decide)
  | full _ _ hfull => exact absurd hfull hu
  | reserve _ hres hne =>
    rw [hres, Finset.sdiff_eq_empty_iff_subset.mpr hsub] at hne
    exact absurd hne (by simp)
  | retry =>
    refine ⟨hm,_,_,_,_,_,rfl,clear_extra_bits_bare _ _ _ (bare_not_all _),?_,?_⟩
    · rw [Finset.nonempty_iff_ne_empty]
      apply clear_extra_bits_nonempty _ _ _ (bare_not_all _) hd.2.2.1
      simpa using hu
    · rw [← hm]
      exact clear_extra_bits_free _ _ _

/-- Since `f` retried its call has stood at its next request, which still is free
unless somebody has reserved slots in between. -/
def Standing (f : Fetch) (l : List (Mark T)) (s : State T) : Prop :=
  ∀ q ∈ s.calls, call q = some f.id → ∃ b k items data mask,
    q = .send f.id b k (.reserve items data mask) ∧ Retried f mask ∧
    ((∃ z ∈ l, ∃ g, fetch z = some g ∧ g.Wins) ∨ dead s.inner.send = true ∨
      Disjoint (slots (N := 30) mask) (slots s.inner.send))

theorem standing_start (hrun : Steps (Step c) mpmc h s) (hx : Traced c s x t)
    (hf : fetch x = some f) (hr : f.Retries) : Standing f [] t := by
  intro q hq hcall
  obtain ⟨hw,b,k,items,data,mask,rfl,hm⟩ := retried_step hrun hx hf hr hq hcall
  refine ⟨b,k,items,data,mask,rfl,hm,.inr (.inr ?_)⟩
  rw [hw]
  exact Finset.disjoint_of_subset_left hm.free disjoint_compl_left

theorem standing_step (hrun : Steps (Step c) mpmc h s) (hn : f.id < s.next) (hx : Traced c s x t)
    (hf : ∀ g, fetch x = some g → g.id ≠ f.id) (hs : Standing f l s) : Standing f (l++[x]) t := by
  intro q hq hcall
  have hmem : ∃ r ∈ s.calls, r = q ∨ ∃ w, woken w r = some q := by
    rcases traced_cases hrun hn hx with ⟨p,hx2,hp,ha⟩ | ⟨-,hall⟩
    · obtain ⟨b,k,items,data,mask,rfl,-⟩ := hs p (acts_mem ha) hp
      refine absurd rfl (hf ⟨f.id,mask,s.inner.send⟩ ?_)
      obtain ⟨e,a⟩ := x
      simp only at hx2
      rw [hx2]
      rfl
    · exact hall q hq hcall
  obtain ⟨r,hr,hrq⟩ := hmem
  have hrcall : call r = some f.id := by
    rcases hrq with rfl | ⟨w,hw⟩
    · exact hcall
    · rwa [woken_call hw] at hcall
  obtain ⟨b,k,items,data,mask,rfl,hm,hcase⟩ := hs r hr hrcall
  rcases hrq with rfl | ⟨w,hw⟩
  · refine ⟨b,k,items,data,mask,rfl,hm,?_⟩
    rcases hcase with ⟨z,hz,hwin⟩ | hfree
    · exact .inl ⟨z,by simp [hz],hwin⟩
    · exact (free_step hrun hx hfree).imp_left (fun hwin => ⟨x,by simp,hwin⟩)
  · cases w <;> cases hw

theorem next_lt (hrun : Steps (Step c) mpmc h s) (hp : p ∈ s.calls) (hcall : call p = some n) :
    n < s.next :=
  (numbered_run hrun).calls p hp n hcall

theorem fetch_lt (hrun : Steps (Step c) mpmc h s) (hx : Traced c s x t) (hf : fetch x = some f) :
    f.id < s.next := by
  obtain ⟨b,k,items,data,m,hx2,-⟩ := fetch_some hf
  exact next_lt hrun (acts_mem (traced_acts hx hx2).2) rfl

theorem standing_run {u : State T} (hrun : Steps (Step c) mpmc h s) (hx : Traced c s x t)
    (hf : fetch x = some f) (hr : f.Retries) (hl : Steps (Traced c) t l u)
    (hbetween : ∀ z ∈ l, ∀ g, fetch z = some g → g.id ≠ f.id) :
    Standing f l u ∧ f.id < u.next := by
  have ht := hrun.next hx.step
  induction hl with
  | refl => exact ⟨standing_start hrun hx hf hr,
      (fetch_lt hrun hx hf).trans_le (step_opening (handles_run hrun) hx.step).1⟩
  | @next l u z v hl hz ih =>
    obtain ⟨hst,hlt⟩ := ih (fun z hz => hbetween z (by simp [hz]))
    have hu := ht.trans (Traced.run hl)
    exact ⟨standing_step hu hlt hz (hbetween z (by simp)) hst,
      hlt.trans_le (step_opening (handles_run hu) hz.step).1⟩

theorem later_fetch {x y : Mark T} {g : Fetch} {u v : State T} (hrun : Steps (Step c) mpmc h s)
    (hx : Traced c s x t) (hf : fetch x = some f) (hr : f.Retries) (hl : Steps (Traced c) t l u)
    (hbetween : ∀ z ∈ l, ∀ g, fetch z = some g → g.id ≠ f.id) (hy : Traced c u y v)
    (hg : fetch y = some g) (hid : g.id = f.id) :
    Retried f g.mask ∧ (g.Retries → ∃ z ∈ l, ∃ g, fetch z = some g ∧ g.Wins) := by
  have hstand := (standing_run hrun hx hf hr hl hbetween).1
  obtain ⟨b,k,items,data,m,hy2,hm⟩ := fetch_some hg
  obtain ⟨rfl,ha⟩ := traced_acts hy hy2
  obtain ⟨b',k',items',data',mask,heq,hret,hcase⟩ := hstand _ (acts_mem ha) (by rw [← hid]; rfl)
  simp only [Party.send.injEq, SendPc.reserve.injEq] at heq
  obtain ⟨-,-,-,-,-,rfl⟩ := heq
  refine ⟨hret,fun hgr => ?_⟩
  obtain ⟨ho,-,hsub⟩ := (Fetch.retries_iff hret.bare).mp hgr
  rw [← hm] at ho hsub
  rcases hcase with hwin | hd | hdisj
  · exact hwin
  · exact absurd (ho.symm.trans hd) (by decide)
  · obtain ⟨i,hi⟩ := hret.nonempty
    exact absurd (hsub hi) (Finset.disjoint_left.mp hdisj hi)

/-- The steps that call `n` may have taken where it stands, against its `fetch_or`s
and the reservations of the others. -/
def Stage (n : ℕ) (l : List (Mark T)) (s : State T) : Party T → Prop
  | .send _ _ _ (.reserve _ _ mask) => own n l = fetches n l ∧
      (fetches n l = 0 ∨ fetches n l ≤ others n l+1 ∧ (fetches n l ≤ others n l ∨
        dead s.inner.send = true ∨ Disjoint (slots (N := 30) mask) (slots s.inner.send)))
  | .send _ _ _ (.write _ _ todo) => own n l+(slots (N := 30) todo).card ≤ fetches n l+30
  | .send _ _ _ .wake => own n l ≤ fetches n l+31
  | _ => own n l ≤ fetches n l+32

structure Account (n : ℕ) (l : List (Mark T)) (s : State T) : Prop where
  stage : ∀ q ∈ s.calls, call q = some n → Stage n l s q
  fetched : fetches n l ≤ others n l+2
  steps : own n l ≤ fetches n l+33

theorem own_append (n : ℕ) (l : List (Mark T)) (x : Mark T) :
    own n (l++[x]) = own n l+if owner x = some n then 1 else 0 := by
  simp [own,List.countP_append,List.countP_singleton]

theorem fetches_append (n : ℕ) (l : List (Mark T)) (x : Mark T) :
    fetches n (l++[x]) = fetches n l+if (fetch x).map Fetch.id = some n then 1 else 0 := by
  cases hx : fetch x <;> simp [fetches,List.filterMap_append,hx,List.countP_append,
    List.countP_singleton]

theorem others_append (n : ℕ) (l : List (Mark T)) (x : Mark T) :
    others n (l++[x]) = others n l+if ∃ f, fetch x = some f ∧ f.id ≠ n ∧ f.Wins then 1 else 0 := by
  cases hx : fetch x <;> simp [others,List.filterMap_append,hx,List.countP_append,
    List.countP_singleton]

theorem others_mono (n : ℕ) (l : List (Mark T)) (x : Mark T) : others n l ≤ others n (l++[x]) := by
  rw [others_append]
  exact Nat.le_add_right _ _

theorem own_other (ho : owner x ≠ some n) : own n (l++[x]) = own n l := by
  rw [own_append, if_neg ho, add_zero]

theorem fetches_other (ho : owner x ≠ some n) : fetches n (l++[x]) = fetches n l := by
  rw [fetches_append, if_neg, add_zero]
  cases hf : fetch x with
  | none => simp
  | some f =>
    rw [Option.map_some, ← fetch_owner hf]
    exact ho

theorem slots_card_le_thirty (w : Word) : (slots (N := 30) w).card ≤ 30 :=
  (Finset.card_le_univ _).trans (by simp)

theorem stage_other (hrun : Steps (Step c) mpmc h s) (hx : Traced c s x t) (ho : owner x ≠ some n)
    (hs : Stage n l s q) : Stage n (l++[x]) t q := by
  have hoth := others_mono n l x
  unfold Stage at hs ⊢
  split at hs
  · rw [own_other ho, fetches_other ho]
    refine ⟨hs.1,hs.2.imp_right (fun ⟨h1,h2⟩ => ⟨by omega,?_⟩)⟩
    rcases h2 with hle | hfree
    · exact .inl (by omega)
    · refine (free_step hrun hx hfree).imp_left (fun ⟨f,hf,hw⟩ => ?_)
      have hne : f.id ≠ n := by
        rintro rfl
        exact ho (fetch_owner hf)
      rw [others_append, if_pos ⟨f,hf,hne,hw⟩]
      omega
  all_goals rwa [own_other ho, fetches_other ho]

theorem stage_woken {w : Futex} (hw : woken w p = some q) (hs : Stage n l s p) :
    Stage n l s q := by
  rcases woken_cases hw with ⟨_,_,_,_,-,rfl,rfl⟩ | ⟨_,_,_,-,rfl,rfl⟩ <;> exact hs

theorem stage_fetch (hrun : Steps (Step c) mpmc h s) {b : Bool} {k : Sender} {items : ℕ}
    {data : Container T} {mask : Word} (ha : Acts c s (.send n b k (.reserve items data mask)) t)
    (hs : Stage n l s (.send n b k (.reserve items data mask)))
    (hown : own n (l++[x]) = own n l+1) (hfet : fetches n (l++[x]) = fetches n l+1)
    (hoth : others n (l++[x]) = others n l) (hq : q ∈ t.calls) (hcall : call q = some n) :
    Stage n (l++[x]) t q := by
  obtain ⟨h1,h2⟩ := hs
  obtain ⟨pc',rfl,⟨h0,-⟩ | ⟨d,e,hd,hmove⟩⟩ := own_moves hrun ha hq hcall
  · cases h0
  generalize ht : t.inner = m' at hmove
  cases hmove with
  | refuse =>
    change own n (l++[x]) ≤ fetches n (l++[x])+32
    omega
  | full =>
    have hle : own n (l++[x]) ≤ fetches n (l++[x])+32 := by omega
    split <;> exact hle
  | @reserve _ _ _ reserved =>
    change own n (l++[x])+(slots (N := 30) reserved).card ≤ fetches n (l++[x])+30
    have := slots_card_le_thirty reserved
    omega
  | retry ho hsub hu =>
    refine ⟨by omega,.inr ⟨?_,.inr (.inr ?_)⟩⟩
    · rcases h2 with h0 | ⟨-,hle | hdead | hdisj⟩
      · omega
      · omega
      · exact absurd (ho.symm.trans hdead) (by decide)
      · obtain ⟨i,hi⟩ := hd.2.2.2.2.1
        exact absurd (hsub hi) (Finset.disjoint_left.mp hdisj hi)
    · rw [ht]
      exact Finset.disjoint_of_subset_left (clear_extra_bits_free _ _ _) disjoint_compl_left

theorem stage_store (hrun : Steps (Step c) mpmc h s) {b : Bool} {k : Sender} {data : Container T}
    {reserved todo : Word} (ha : Acts c s (.send n b k (.write data reserved todo)) t)
    (hs : own n l+(slots (N := 30) todo).card ≤ fetches n l+30)
    (hown : own n (l++[x]) = own n l+1) (hfet : fetches n (l++[x]) = fetches n l)
    (hq : q ∈ t.calls) (hcall : call q = some n) : Stage n (l++[x]) t q := by
  obtain ⟨pc',rfl,⟨h0,-⟩ | ⟨d,e,hd,hmove⟩⟩ := own_moves hrun ha hq hcall
  · cases h0
  generalize t.inner = m' at hmove
  cases hmove with
  | @write _ _ _ _ todo' i _ hi htodo =>
    change own n (l++[x])+(slots (N := 30) todo').card ≤ fetches n (l++[x])+30
    rw [htodo, Finset.card_erase_of_mem hi]
    have := Finset.card_pos.mpr ⟨i,hi⟩
    omega
  | commit h0 =>
    split
    · change own n (l++[x]) ≤ fetches n (l++[x])+31
      omega
    · change own n (l++[x]) ≤ fetches n (l++[x])+32
      omega

theorem stage_own (hrun : Steps (Step c) mpmc h s) (hx : x.2 = some (s.inner,p))
    (hp : call p = some n) (ha : Acts c s p t) (htry : trying p = true) (hs : Account n l s) :
    Account n (l++[x]) t := by
  have hstage := hs.stage p (acts_mem ha) hp
  have hfetched := hs.fetched
  have hown : own n (l++[x]) = own n l+1 := by
    rw [own_append, if_pos]
    rw [owner, hx]
    exact hp
  have hoth : others n (l++[x]) = others n l := by
    rw [others_append, if_neg]
    · rfl
    · rintro ⟨f,hf,hne,-⟩
      have ho := fetch_owner hf
      rw [owner, hx] at ho
      exact hne (Option.some.inj (ho.symm.trans hp))
  cases p with
  | recv => cases htry
  | drop_sender => cases htry
  | drop_receiver => cases htry
  | send id b k pc =>
    cases hp
    have hnone (h0 : fetch x = none) : fetches n (l++[x]) = fetches n l := by
      rw [fetches_append, h0]
      rfl
    obtain ⟨e,a⟩ := x
    simp only at hx
    subst hx
    cases pc with
    | reserve items data mask =>
      have hfet : fetches n (l++[(e,some (s.inner,.send n b k (.reserve items data mask)))]) =
          fetches n l+1 := by rw [fetches_append]; simp [fetch]
      refine ⟨fun q hq hcall => stage_fetch hrun ha hstage hown hfet hoth hq hcall,?_,?_⟩
      · obtain ⟨-,h0 | ⟨h1,-⟩⟩ := hstage <;> omega
      · have := hstage.1
        omega
    | write data reserved todo =>
      have hfet := hnone rfl
      change own n l+(slots (N := 30) todo).card ≤ fetches n l+30 at hstage
      exact ⟨fun q hq hcall => stage_store hrun ha hstage hown hfet hq hcall,by omega,by omega⟩
    | wake =>
      have hfet := hnone rfl
      change own n l ≤ fetches n l+31 at hstage
      refine ⟨fun q hq hcall => ?_,by omega,by omega⟩
      obtain ⟨pc',rfl,⟨-,rfl⟩ | ⟨d,e,hd,hmove⟩⟩ := own_moves hrun ha hq hcall
      · change own n _ ≤ fetches n _+32
        omega
      · cases hmove
    | done r =>
      have hfet := hnone rfl
      change own n l ≤ fetches n l+32 at hstage
      refine ⟨fun q hq hcall => ?_,by omega,by omega⟩
      obtain ⟨pc',rfl,⟨h0,-⟩ | ⟨d,e,hd,hmove⟩⟩ := own_moves hrun ha hq hcall
      · cases h0
      · cases hmove
    | spin => cases htry
    | sleep => cases htry
    | asleep => cases htry
    | rearm => cases htry

theorem account_step (hrun : Steps (Step c) mpmc h s) (hn : n < s.next) (hx : Traced c s x t)
    (htry : ∀ m p, x.2 = some (m,p) → call p = some n → trying p = true) (hs : Account n l s) :
    Account n (l++[x]) t := by
  rcases traced_cases hrun hn hx with ⟨p,hx2,hp,ha⟩ | ⟨ho,hall⟩
  · exact stage_own hrun hx2 hp ha (htry _ _ hx2 hp) hs
  · have hown := own_other (l := l) ho
    have hfet := fetches_other (l := l) ho
    have hoth := others_mono n l x
    have hfetched := hs.fetched
    have hsteps := hs.steps
    refine ⟨fun q hq hcall => ?_,by omega,by omega⟩
    obtain ⟨r,hr,hrq⟩ := hall q hq hcall
    rcases hrq with rfl | ⟨w,hw⟩
    · exact stage_other hrun hx ho (hs.stage _ hr hcall)
    · have hrcall : call r = some n := by rwa [woken_call hw] at hcall
      exact stage_woken hw (stage_other hrun hx ho (hs.stage _ hr hrcall))

theorem account_start (n : ℕ) (s : State T) : Account n [] s := by
  refine ⟨fun q _ _ => ?_,Nat.zero_le _,Nat.zero_le _⟩
  cases q with
  | send id b k pc =>
    cases pc with
    | reserve => exact ⟨rfl,.inl rfl⟩
    | write data reserved todo =>
      change 0+(slots (N := 30) todo).card ≤ 0+30
      have := slots_card_le_thirty todo
      omega
    | _ => exact Nat.zero_le _
  | _ => exact Nat.zero_le _

theorem account_run (hrun : Steps (Step c) mpmc h s) (hn : n < s.next)
    (hl : Steps (Traced c) s l t) (hone : OneAttempt n l) : Account n l t := by
  induction hl with
  | refl => exact account_start n s
  | @next l u x v hl hx ih =>
    have hu := Traced.run hl
    refine account_step (hrun.trans hu) (hn.trans_le (late_number hrun hu).1) hx ?_
      (ih (fun z hz => hone z (by simp [hz])))
    exact hone x (by simp)

theorem plain_step (hrun : Steps (Step c) mpmc h s) (hn : n < s.next) (hx : Traced c s x t)
    (hs : ∀ q ∈ s.calls, call q = some n → ∃ k pc, q = .send n false k pc) :
    ∀ q ∈ t.calls, call q = some n → ∃ k pc, q = .send n false k pc := by
  intro q hq hcall
  rcases traced_cases hrun hn hx with ⟨p,-,hp,ha⟩ | ⟨-,hall⟩
  · obtain ⟨k,pc,rfl⟩ := hs p (acts_mem ha) hp
    obtain ⟨pc',rfl,-⟩ := own_moves hrun ha hq hcall
    exact ⟨k,pc',rfl⟩
  · obtain ⟨r,hr,rfl | ⟨w,hw⟩⟩ := hall q hq hcall
    · exact hs r hr hcall
    · obtain ⟨k,pc,rfl⟩ := hs r hr (by rwa [woken_call hw] at hcall)
      rcases woken_cases hw with ⟨_,_,_,_,-,hp,rfl⟩ | ⟨_,_,_,-,hp,-⟩
      · cases hp
        exact ⟨_,_,rfl⟩
      · cases hp

theorem plain_trying {k : Sender} {pc : SendPc T} (hok : Ok (.send n false k pc)) :
    trying (.send n false k pc) = true := by
  obtain ⟨-,d,hd⟩ := hok
  cases pc with
  | spin => exact absurd hd.1 (by decide)
  | sleep => exact absurd hd.1 (by decide)
  | asleep => exact absurd hd.1 (by decide)
  | rearm => exact absurd hd.1 (by decide)
  | _ => rfl

theorem plain_run (hrun : Steps (Step c) mpmc h s) {k : Sender} {pc : SendPc T}
    (hp : .send n false k pc ∈ s.calls) (hl : Steps (Traced c) s l t) :
    OneAttempt n l ∧ ∀ q ∈ t.calls, call q = some n → ∃ k pc, q = .send n false k pc := by
  induction hl with
  | refl =>
    refine ⟨by simp [OneAttempt],fun q hq hcall => ?_⟩
    obtain ⟨rest,hs⟩ := Multiset.exists_cons_of_mem hp
    rw [hs, Multiset.mem_cons] at hq
    rcases hq with rfl | hq
    · exact ⟨k,pc,rfl⟩
    · exact absurd hcall (flying_rest hrun hs rfl q hq)
  | @next l u x v hl hx ih =>
    have hu := hrun.trans (Traced.run hl)
    have hn := (next_lt hrun hp rfl).trans_le (late_number hrun (Traced.run hl)).1
    refine ⟨fun z hz m p hz2 hcall => ?_,plain_step hu hn hx ih.2⟩
    rcases List.mem_append.mp hz with hz | hz
    · exact ih.1 z hz m p hz2 hcall
    · rw [List.mem_singleton.mp hz] at hz2
      have ha := (traced_acts hx hz2).2
      obtain ⟨k',pc',rfl⟩ := ih.2 _ (acts_mem ha) hcall
      exact plain_trying ((handles_run hu).ok _ (acts_mem ha))

theorem trying_enabled (hok : Ok p) (htry : trying p = true) :
    code c s.inner p ≠ .blocked ∧ code c s.inner p ≠ .ub := by
  cases p with
  | send id b k pc =>
    obtain ⟨-,d,hd⟩ := hok
    refine ⟨?_,send_defined hd⟩
    cases pc with
    | reserve =>
      simp only [code, send_code, try_send_reserve, hd.1.1]
      repeat' split
      all_goals simp
    | write =>
      simp only [code, send_code, try_send_write]
      repeat' split
      all_goals simp
    | asleep => cases htry
    | _ => simp [code,send_code]
  | _ => cases htry

/-- Every later request of one `try_send` names free slots of the word its call has
seen last, and fails only if others have reserved slots since. So one
`try_send` makes at most two `fetch_or`s more than the others make
reservations meanwhile, and nothing can hold it up before its end. -/
theorem reservation_lock_free (hrun : Steps (Traced c) mpmc l s) :
    (∀ l₁ l₂ l₃ x y f g, l = l₁++x :: (l₂++y :: l₃) → fetch x = some f → fetch y = some g →
      g.id = f.id → (∀ z ∈ l₂, ∀ o, fetch z = some o → o.id ≠ f.id) → f.Retries →
      (slots (N := 30) g.mask).Nonempty ∧ slots (N := 30) g.mask ⊆ (slots f.prev)ᶜ ∧
      Bare g.mask ∧ (g.Retries → ∃ z ∈ l₂, ∃ o, fetch z = some o ∧ o.id ≠ f.id ∧ o.Wins)) ∧
    (∀ l₁ l₂ u n, l = l₁++l₂ → Steps (Traced c) mpmc l₁ u → Steps (Traced c) u l₂ s →
      (∃ p ∈ u.calls, call p = some n) →
      (OneAttempt n l₂ → fetches n l₂ ≤ others n l₂+2 ∧ own n l₂ ≤ others n l₂+35) ∧
      ((∃ k pc, .send n false k pc ∈ u.calls) → OneAttempt n l₂)) ∧
    ∀ p ∈ s.calls, trying p = true → code c s.inner p ≠ .blocked ∧ code c s.inner p ≠ .ub := by
  refine ⟨?_,?_,fun p hp => trying_enabled ((handles_run (Traced.run hrun)).ok p hp)⟩
  · rintro l₁ l₂ l₃ x y f g rfl hf hg hid hbetween hr
    obtain ⟨a,hpre,hrest⟩ := hrun.split
    rw [← List.singleton_append] at hrest
    obtain ⟨b,hx,hrest⟩ := hrest.split
    obtain ⟨d,hl,hrest⟩ := hrest.split
    rw [← List.singleton_append] at hrest
    obtain ⟨e,hy,-⟩ := hrest.split
    obtain ⟨hret,hwin⟩ :=
      later_fetch (Traced.run hpre) hx.of_single hf hr hl hbetween hy.of_single hg hid
    refine ⟨hret.nonempty,hret.free,hret.bare,fun hgr => ?_⟩
    obtain ⟨z,hz,o,ho,hw⟩ := hwin hgr
    exact ⟨z,hz,o,ho,hbetween z hz o ho,hw⟩
  · rintro l₁ l₂ u n - hpre hl ⟨p,hp,hcall⟩
    have hu := Traced.run hpre
    refine ⟨fun hone => ?_,fun ⟨k,pc,hp⟩ => (plain_run hu hp hl).1⟩
    have hacc := account_run hu (next_lt hu hp hcall) hl hone
    have := hacc.fetched
    have := hacc.steps
    exact ⟨by omega,by omega⟩

theorem traced_go {m m' : Inner T} {ss : Multiset Sender} {rs : Multiset ℕ} {p' : Party T}
    {r : Multiset (Party T)} {e : Event T} (hc : code c m p = .go m' p' e) :
    Traced c ⟨m,ss,rs,p ::ₘ r,n⟩ (e,some (m,p)) ⟨m',ss,rs,p' ::ₘ r,n⟩ := by
  have hp : PartyStep (program c) m (p ::ₘ r) e m' (p' ::ₘ r) := .go hc
  exact .acts (.party (s := ⟨m,ss,rs,p ::ₘ r,n⟩) hp) (.go rfl hc)

def asking (id v : ℕ) (mask : Word) : Party ℕ :=
  .send id false ⟨0,0⟩ (.reserve 1 (.option (some v)) mask)

def writing (id v : ℕ) (mask : Word) : Party ℕ :=
  .send id false ⟨0,0⟩ (.write (.option (some v)) mask mask)

def racing (send : Word) (p q : Party ℕ) : State ℕ :=
  ⟨{ (mpmc : State ℕ).inner with send := send },{⟨0,0⟩},{0},p ::ₘ q ::ₘ 0,3⟩

def racer (send : Word) (p : Party ℕ) : Mark ℕ := (.tau,some ((racing send p p).inner,p))

/-- Both calls ask for the first slot. The second call gets it, and the first is content
with the last one. -/
theorem reservation_lock_free_contended : ∃ (l : List (Mark ℕ)) (x y z : Mark ℕ) (f g : Fetch)
    (u s : State ℕ), Steps (Traced .release) mpmc l u ∧ Steps (Traced .release) u [x,y,z] s ∧
      fetch y = some f ∧ fetch z = some g ∧ f.Retries ∧ g.Wins ∧
      slots (N := 30) g.mask ⊆ (slots f.prev)ᶜ ∧ fetches 1 [x,y,z] = 2 ∧ others 1 [x,y,z] = 1 ∧
      own 1 [x,y,z] ≤ others 1 [x,y,z]+35 := by
  obtain ⟨l,-,hl⟩ : ∃ l : List (Mark ℕ), l.map Prod.fst = _ ∧ Steps (Traced .release) mpmc l
      (racing 0 (asking 2 8 high_bit) (asking 1 7 high_bit)) :=
    trace_exists ((Steps.single (.call_send (h := ⟨0,0⟩) false (.value 7) (by simp [mpmc]))).next
      (.call_send (h := ⟨0,0⟩) false (.value 8) (by simp [mpmc])))
  have hx : Traced .release (racing 0 (asking 2 8 high_bit) (asking 1 7 high_bit))
      (racer 0 (asking 2 8 high_bit))
      (racing high_bit (writing 2 8 high_bit) (asking 1 7 high_bit)) := traced_go rfl
  have hlast : clear_extra_bits (~~~(high_bit ||| Status.all)) 1 true = 4 := by decide +kernel
  have hy : Traced .release (racing high_bit (asking 1 7 high_bit) (writing 2 8 high_bit))
      (racer high_bit (asking 1 7 high_bit))
      (racing high_bit (asking 1 7 (clear_extra_bits (~~~(high_bit ||| Status.all)) 1 true))
        (writing 2 8 high_bit)) := traced_go rfl
  have hz : Traced .release (racing high_bit (asking 1 7 4) (writing 2 8 high_bit))
      (racer high_bit (asking 1 7 4))
      (racing (high_bit ||| 4) (writing 1 7 4) (writing 2 8 high_bit)) := traced_go rfl
  rw [hlast, racing, Multiset.cons_swap] at hy
  have hrun := ((Steps.single hx).next hy).next hz
  obtain ⟨hrep,hbound,-⟩ := reservation_lock_free (hl.trans hrun)
  obtain ⟨-,hfree,-,-⟩ := hrep (l++[racer 0 (asking 2 8 high_bit)]) [] []
    (racer high_bit (asking 1 7 high_bit)) (racer high_bit (asking 1 7 4))
    ⟨1,high_bit,high_bit⟩ ⟨1,4,high_bit⟩ (by simp) rfl rfl rfl (fun _ h => by cases h)
    ⟨rfl,by decide,by decide⟩
  have hone := hbound _ _ _ 1 rfl hl hrun ⟨asking 1 7 high_bit,by simp [racing],rfl⟩
  exact ⟨l,_,_,_,_,_,_,_,hl,hrun,rfl,rfl,⟨rfl,by decide,by decide⟩,by decide,hfree,by rfl,by rfl,
    (hone.1 (hone.2 ⟨⟨0,0⟩,_,by simp [racing,asking]; rfl⟩)).2⟩

end Lockness.BagProgress
