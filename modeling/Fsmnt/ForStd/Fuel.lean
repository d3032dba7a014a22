import Mathlib.Data.Fintype.Card
import Mathlib.Data.Set.Finite.Basic
import Mathlib.Logic.Relation
import Fsmnt.ForStd.Post

/-!
# Loops that are given fuel

A loop without a bound is modelled with fuel, and running out of it is told apart from every failure
of the program. `EStateM.Computes` says what such a computation comes to when fuel is forgotten: a
result, a failure, or going on forever. A loop goes on forever when its steps reach a cycle, if the
states that it can reach are finitely many.
-/

namespace Relation

open EStateM

variable {α : Type} {step : α → α → Prop} {a : α}

/-- The steps from `a` lead into a cycle. -/
def ReachesCycle (step : α → α → Prop) (a : α) : Prop :=
  ∃ b, ReflTransGen step a b ∧ TransGen step b b

/-- Without a cycle among finitely many states every path ends. -/
theorem acc_of_not_reachesCycle (hfinite : {b | ReflTransGen step a b}.Finite)
    (h : ¬ ReachesCycle step a) : Acc (fun b a => step a b) a := by
  let Reached := {b // ReflTransGen step a b}
  have : Finite Reached := hfinite
  let behind : Reached → Reached → Prop := fun c b => TransGen step b.1 c.1
  have : Std.Irrefl behind := ⟨fun b hcycle => h ⟨b.1, b.2, hcycle⟩⟩
  have hacc : ∀ b : Reached, Acc (fun b a => step a b) b.1 := by
    intro b
    induction b using (Finite.wellFounded_of_trans_of_irrefl behind).induction with
    | h b ih => exact ⟨_, fun c hbc => ih ⟨c, b.2.tail hbc⟩ (.single hbc)⟩
  exact hacc ⟨a, .refl⟩

end Relation

namespace EStateM

variable {ε σ τ α β : Type} {Q : α → σ → Prop} {s : σ}

/-- Why a computation with fuel has stopped without a result. -/
inductive Stop (ε : Type) where
  | failed (e : ε)
  | outOfFuel
  deriving DecidableEq, Repr

theorem Stop.failed_ne_outOfFuel (e : ε) : Stop.failed e ≠ .outOfFuel := by
  intro h
  cases h

/-- A result that does not depend on the state. -/
def liftExcept : Except ε α → EStateM (Stop ε) σ α
  | .ok a => pure a
  | .error e => throw (.failed e)

/-- A computation without fuel. -/
def liftFailure (x : EStateM ε σ α) : EStateM (Stop ε) σ α := fun s =>
  match x s with
  | .ok a t => .ok a t
  | .error e t => .error (.failed e) t

/-- A loop that ends with the first result of its body. -/
def loop (body : α → EStateM (Stop ε) σ (α ⊕ β)) : Nat → α → EStateM (Stop ε) σ β
  | 0, _ => throw .outOfFuel
  | fuel + 1, a => do
    match ← body a with
    | .inl next => loop body fuel next
    | .inr b => pure b

/-- The computation does not run out of fuel. -/
def Finishes (x : EStateM (Stop ε) σ α) (s : σ) : Prop :=
  Post x s (fun _ _ => True) (fun e _ => e ≠ .outOfFuel)

@[simp] theorem post_liftExcept {r : Except ε α} {E : Stop ε → σ → Prop} :
    Post (liftExcept r) s Q E ↔
      (∀ a, r = .ok a → Q a s) ∧ ∀ e, r = .error e → E (.failed e) s := by
  cases r with
  | ok a | error e => simp [liftExcept]

@[simp] theorem post_liftFailure {x : EStateM ε σ α} {E : Stop ε → σ → Prop} :
    Post (liftFailure x) s Q E ↔ Post x s Q (fun e => E (.failed e)) := by
  unfold Post liftFailure
  cases x s with
  | ok a t | error e t => exact Iff.rfl

/-- A loop that makes `left` smaller with every pass that goes on. -/
theorem post_loop_of_lt {body : α → EStateM (Stop ε) σ (α ⊕ β)} {I : σ → Prop} (left : σ → Nat)
    {Q : β → σ → Prop} {E : Stop ε → σ → Prop} (hbody : ∀ a s, I s → Post (body a) s (fun r t =>
      (∀ next, r = .inl next → I t ∧ left t < left s) ∧ ∀ b, r = .inr b → Q b t) E) {fuel : Nat}
    (a : α) (hs : I s) (hfuel : left s < fuel) : Post (loop body fuel a) s Q E := by
  induction fuel generalizing a s with
  | zero => exact absurd hfuel (Nat.not_lt_zero _)
  | succ fuel ih =>
    rw [loop, post_bind]
    apply (hbody a s hs).imp
    rintro (next | b) t ⟨hinl, hinr⟩
    · obtain ⟨ht, hlt⟩ := hinl next rfl
      exact ih next ht (by omega)
    · exact hinr b rfl

/-- From the states with `I`, which are not left, the results of `x` are those with `R`, of which
    there is at most one, and `x` goes on forever when `loops`. Only with `total` is every failure
    one of the computation itself. -/
structure Computes (I : σ → Prop) (total : Prop) (x : Nat → EStateM (Stop ε) σ α) (R : α → Prop)
    (loops : Prop) : Prop where
  functional : ∀ {a b}, R a → R b → a = b
  exclusive : ∀ {a}, R a → ¬ loops
  post : ∀ fuel s, I s → Post (x fuel) s (fun a t => I t ∧ R a)
    (fun e t => I t ∧ (total → e ≠ .outOfFuel → ∀ a, ¬ R a))
  finishes : ¬ loops → ∃ enough, ∀ fuel, enough ≤ fuel → ∀ s, I s → Finishes (x fuel) s
  runs_out : total → loops → ∀ fuel s, I s →
    Post (x fuel) s (fun _ _ => False) (fun e _ => e = .outOfFuel)

namespace Computes

variable {I : σ → Prop} {total loops : Prop} {x : Nat → EStateM (Stop ε) σ α} {R : α → Prop} {s : σ}

/-- What does not use fuel. -/
theorem of_post {y : EStateM (Stop ε) σ α} (hR : ∀ {a b}, R a → R b → a = b)
    (h : ∀ s, I s → Post y s (fun a t => I t ∧ R a)
      (fun e t => I t ∧ e ≠ .outOfFuel ∧ (total → ∀ a, ¬ R a))) :
    Computes I total (fun _ => y) R False where
  functional := hR
  exclusive := fun _ => id
  post := fun _ s hs => (h s hs).mono (fun _ _ hok => hok)
    fun _ _ hfail => ⟨hfail.1, fun htotal _ => hfail.2.2 htotal⟩
  finishes := fun _ => ⟨0, fun _ _ s hs =>
    (h s hs).mono (fun _ _ _ => trivial) fun _ _ hfail => hfail.2.1⟩
  runs_out := fun _ => False.elim

theorem lift (r : Except ε α) :
    Computes I total (fun _ => liftExcept r) (fun a => r = .ok a) False := by
  apply of_post
  · intro a b ha hb
    exact Except.ok.inj (ha.symm.trans hb)
  intro s hs
  rw [post_liftExcept]
  refine ⟨fun a ha => ⟨hs, ha⟩, fun e he => ⟨hs, nofun, fun _ a ha => ?_⟩⟩
  rw [he] at ha
  cases ha

section

variable (h : Computes I total x R loops)

include h

/-- Going on forever, in terms of fuel. -/
theorem exists_finishes_iff (htotal : total) (hs : I s) :
    (∃ fuel, Finishes (x fuel) s) ↔ ¬ loops := by
  constructor
  · rintro ⟨fuel, hfinish⟩ hloops
    have hboth := hfinish.and (h.runs_out htotal hloops fuel s hs)
    unfold Post at hboth
    split at hboth
    · exact hboth.2
    · exact hboth.1 hboth.2
  · intro hloops
    obtain ⟨enough, hfinish⟩ := h.finishes hloops
    exact ⟨enough, hfinish enough (Nat.le_refl _) s hs⟩

/-- A computation that does not go on forever and has a result returns it, given enough fuel. -/
theorem exists_ok (hloops : ¬ loops) {a : α} (ha : R a) :
    ∃ enough, ∀ fuel, enough ≤ fuel → ∀ s, I s →
      Post (x fuel) s (fun b t => I t ∧ b = a) (fun _ t => I t ∧ ¬ total) := by
  obtain ⟨enough, hfinish⟩ := h.finishes hloops
  refine ⟨enough, fun fuel hfuel s hs => ?_⟩
  apply ((h.post fuel s hs).and (hfinish fuel hfuel s hs)).mono
  · rintro b t ⟨⟨ht, hb⟩, -⟩
    exact ⟨ht, h.functional hb ha⟩
  · rintro e t ⟨⟨ht, hnone⟩, hne⟩
    exact ⟨ht, fun htotal => hnone htotal hne a ha⟩

theorem congr {R' : α → Prop} {loops' : Prop} (hR : ∀ a, R a ↔ R' a) (hloops : loops ↔ loops') :
    Computes I total x R' loops' := by
  obtain rfl : R = R' := funext fun a => propext (hR a)
  obtain rfl : loops = loops' := propext hloops
  exact h

theorem zoom {J : τ → Prop} {view : τ → σ} {update : σ → τ → τ} (hview : ∀ s, J s → I (view s))
    (hupdate : ∀ s t, J s → I t → J (update t s)) :
    Computes J total (fun fuel => zoom view update (x fuel)) R loops where
  functional := h.functional
  exclusive := h.exclusive
  post := by
    intro fuel s hs
    rw [post_zoom]
    exact (h.post fuel _ (hview s hs)).mono (fun _ t hok => ⟨hupdate s t hs hok.1, hok.2⟩)
      fun _ t hfail => ⟨hupdate s t hs hfail.1, hfail.2⟩
  finishes := by
    intro hloops
    obtain ⟨enough, hfinish⟩ := h.finishes hloops
    refine ⟨enough, fun fuel hfuel s hs => ?_⟩
    rw [Finishes, post_zoom]
    exact hfinish fuel hfuel _ (hview s hs)
  runs_out := by
    intro htotal hloops fuel s hs
    rw [post_zoom]
    exact h.runs_out htotal hloops fuel _ (hview s hs)

/-- What may have its result at hand already. -/
theorem memo {y : Nat → EStateM (Stop ε) σ α}
    (hrun : ∀ fuel s, I s → y fuel s = x fuel s ∨ ∃ a t, y fuel s = .ok a t ∧ I t ∧ R a) :
    Computes I total y R loops where
  functional := h.functional
  exclusive := h.exclusive
  post := by
    intro fuel s hs
    unfold Post
    obtain hsame | ⟨a, t, hhit, ht, ha⟩ := hrun fuel s hs
    · rw [hsame]
      exact h.post fuel s hs
    · rw [hhit]
      exact ⟨ht, ha⟩
  finishes := by
    intro hloops
    obtain ⟨enough, hfinish⟩ := h.finishes hloops
    refine ⟨enough, fun fuel hfuel s hs => ?_⟩
    unfold Finishes Post
    obtain hsame | ⟨a, t, hhit, -, -⟩ := hrun fuel s hs
    · rw [hsame]
      exact hfinish fuel hfuel s hs
    · rw [hhit]
      trivial
  runs_out := by
    intro htotal hloops fuel s hs
    unfold Post
    obtain hsame | ⟨a, t, hhit, -, ha⟩ := hrun fuel s hs
    · rw [hsame]
      exact h.runs_out htotal hloops fuel s hs
    · exact absurd hloops (h.exclusive ha)

end

/-- A bound for the one result that there may be. -/
theorem exists_bound {R : α → Prop} {P : α → Nat → Prop} (hR : ∀ {a b}, R a → R b → a = b)
    (h : ∀ a, R a → ∃ n, P a n) : ∃ n, ∀ a, R a → P a n := by
  by_cases hsome : ∃ a, R a
  · obtain ⟨a, ha⟩ := hsome
    obtain ⟨n, hn⟩ := h a ha
    exact ⟨n, fun b hb => hR ha hb ▸ hn⟩
  · exact ⟨0, fun a ha => absurd ⟨a, ha⟩ hsome⟩

section Bind

variable {f : Nat → α → EStateM (Stop ε) σ β} {S : α → β → Prop} {loopsAt : α → Prop}

/-- A sequence loops where one of its parts does. -/
theorem bind (hx : Computes I total x R loops)
    (hf : ∀ a, R a → Computes I total (fun fuel => f fuel a) (S a) (loopsAt a)) :
    Computes I total (fun fuel => x fuel >>= f fuel) (fun b => ∃ a, R a ∧ S a b)
      (loops ∨ ∃ a, R a ∧ loopsAt a) where
  functional := by
    rintro b c ⟨a, ha, hb⟩ ⟨a', ha', hc⟩
    obtain rfl := hx.functional ha ha'
    exact (hf a ha).functional hb hc
  exclusive := by
    rintro b ⟨a, ha, hb⟩ (hloops | ⟨a', ha', hloops⟩)
    · exact hx.exclusive ha hloops
    · obtain rfl := hx.functional ha ha'
      exact (hf a ha).exclusive hb hloops
  post := by
    intro fuel s hs
    rw [post_bind]
    apply (hx.post fuel s hs).mono
    · rintro a t ⟨ht, ha⟩
      apply ((hf a ha).post fuel t ht).mono
      · rintro b u ⟨hu, hb⟩
        exact ⟨hu, a, ha, hb⟩
      rintro e u ⟨hu, hnone⟩
      refine ⟨hu, fun htotal hne b => ?_⟩
      rintro ⟨a', ha', hb⟩
      obtain rfl := hx.functional ha ha'
      exact hnone htotal hne b hb
    · rintro e t ⟨ht, hnone⟩
      refine ⟨ht, fun htotal hne b => ?_⟩
      rintro ⟨a, ha, -⟩
      exact hnone htotal hne a ha
  finishes := by
    intro hloops
    obtain ⟨enough, hfinish⟩ := hx.finishes fun h => hloops (.inl h)
    obtain ⟨enough', hfinish'⟩ := exists_bound hx.functional fun a ha =>
      (hf a ha).finishes fun h => hloops (.inr ⟨a, ha, h⟩)
    refine ⟨max enough enough', fun fuel hfuel s hs => ?_⟩
    rw [Finishes, post_bind]
    apply ((hx.post fuel s hs).and (hfinish fuel (by omega) s hs)).mono
    · rintro a t ⟨⟨ht, ha⟩, -⟩
      exact hfinish' a ha fuel (by omega) t ht
    · exact fun _ _ hfail => hfail.2
  runs_out := by
    intro htotal hloops fuel s hs
    rw [post_bind]
    obtain hloops | ⟨a, ha, hloops⟩ := hloops
    · exact (hx.runs_out htotal hloops fuel s hs).imp (fun _ _ h => h.elim)
    apply (hx.post fuel s hs).mono
    · rintro a' t ⟨ht, ha'⟩
      obtain rfl := hx.functional ha ha'
      exact (hf a ha).runs_out htotal hloops fuel t ht
    · rintro e t ⟨-, hnone⟩
      exact Classical.byContradiction fun hne => hnone htotal hne a ha

end Bind

/-! ### The rule for loops -/

section Loop

variable {body : Nat → α → EStateM (Stop ε) σ (α ⊕ β)} {B : α → α ⊕ β → Prop} {hangs : α → Prop}
  {a : α} {b : β}

/-- The loop goes on from one state to the other. -/
abbrev Continues (B : α → α ⊕ β → Prop) (a next : α) : Prop := B a (.inl next)

/-- What the loop returns. -/
def Returns (B : α → α ⊕ β → Prop) (a : α) (b : β) : Prop :=
  ∃ last, Relation.ReflTransGen (Continues B) a last ∧ B last (.inr b)

/-- The loop goes on forever, or its body does where it comes. -/
def Loops (B : α → α ⊕ β → Prop) (hangs : α → Prop) (a : α) : Prop :=
  ∃ c, Relation.ReflTransGen (Continues B) a c ∧ (hangs c ∨ Relation.TransGen (Continues B) c c)

theorem loops_cases (h : Loops B hangs a) : hangs a ∨ ∃ next, Continues B a next ∧
    Loops B hangs next := by
  obtain ⟨c, hac, hc⟩ := h
  obtain rfl | ⟨next, hstep, hnext⟩ := hac.cases_head
  · obtain hhangs | hcycle := hc
    · exact .inl hhangs
    · obtain ⟨next, hstep, hnext⟩ := Relation.TransGen.head'_iff.mp hcycle
      exact .inr ⟨next, hstep, a, hnext, .inr hcycle⟩
  · exact .inr ⟨next, hstep, c, hnext, hc⟩

theorem returns_cases (h : Returns B a b) :
    B a (.inr b) ∨ ∃ next, Continues B a next ∧ Returns B next b := by
  obtain ⟨last, hreach, hlast⟩ := h
  obtain rfl | ⟨next, hstep, hnext⟩ := hreach.cases_head
  · exact .inl hlast
  · exact .inr ⟨next, hstep, last, hnext, hlast⟩

variable (hbody : ∀ a, Computes I total (fun fuel => body fuel a) (B a) (hangs a))

include hbody

/-- A loop returns at most one value, -/
theorem returns_functional {c : β} (hb : Returns B a b) (hc : Returns B a c) : b = c := by
  obtain ⟨last, hreach, hb⟩ := hb
  induction hreach using Relation.ReflTransGen.head_induction_on with
  | refl =>
    obtain hc | ⟨next, hnext, -⟩ := returns_cases hc
    · exact Sum.inr.inj ((hbody last).functional hb hc)
    · cases (hbody last).functional hb hnext
  | @head a' next hstep _ ih =>
    obtain hc | ⟨next', hnext', hc⟩ := returns_cases hc
    · cases (hbody a').functional hstep hc
    · obtain rfl := Sum.inl.inj ((hbody a').functional hstep hnext')
      exact ih hc

/-- and none where it does not end. -/
theorem returns_exclusive (hb : Returns B a b) : ¬ Loops B hangs a := by
  obtain ⟨last, hreach, hb⟩ := hb
  intro hloops
  induction hreach using Relation.ReflTransGen.head_induction_on with
  | refl =>
    obtain hhangs | ⟨next, hnext, -⟩ := loops_cases hloops
    · exact (hbody last).exclusive hb hhangs
    · cases (hbody last).functional hb hnext
  | @head a' next hstep _ ih =>
    obtain hhangs | ⟨next', hnext', hloops⟩ := loops_cases hloops
    · exact (hbody a').exclusive hstep hhangs
    · obtain rfl := Sum.inl.inj ((hbody a').functional hstep hnext')
      exact ih hloops

theorem post_loop (k fuel : Nat) : ∀ a s, I s → Post (loop (body k) fuel a) s
    (fun b t => I t ∧ Returns B a b)
    (fun e t => I t ∧ (total → e ≠ .outOfFuel → ∀ b, ¬ Returns B a b)) := by
  induction fuel with
  | zero => exact fun _ _ hs => ⟨hs, fun _ hne => absurd rfl hne⟩
  | succ fuel ih =>
    intro a s hs
    rw [loop, post_bind]
    apply ((hbody a).post k s hs).mono
    · rintro (next | b) t ⟨ht, hB⟩
      · apply (ih next t ht).mono
        · rintro b u ⟨hu, last, hreach, hlast⟩
          exact ⟨hu, last, hreach.head hB, hlast⟩
        · rintro e u ⟨hu, hnone⟩
          refine ⟨hu, fun htotal hne b hret => ?_⟩
          obtain hb | ⟨next', hnext', hret⟩ := returns_cases hret
          · cases (hbody a).functional hB hb
          · obtain rfl := Sum.inl.inj ((hbody a).functional hB hnext')
            exact hnone htotal hne b hret
      · exact ⟨ht, a, .refl, hB⟩
    · rintro e t ⟨ht, hnone⟩
      refine ⟨ht, fun htotal hne b hret => ?_⟩
      obtain hb | ⟨next, hnext, -⟩ := returns_cases hret
      · exact hnone htotal hne _ hb
      · exact hnone htotal hne _ hnext

/-- Enough fuel lets a loop that ends finish. -/
theorem finishes_loop (hacc : Acc (fun next a => Continues B a next) a)
    (hloops : ¬ Loops B hangs a) :
    ∃ enough, ∀ k fuel, enough ≤ k → enough ≤ fuel → ∀ s, I s →
      Finishes (loop (body k) fuel a) s := by
  induction hacc with
  | intro a _ ih =>
    obtain ⟨enough, hfinish⟩ := (hbody a).finishes fun h => hloops ⟨a, .refl, .inl h⟩
    -- fuel that is enough for what comes next, whether or not the loop goes on
    obtain ⟨rest, hrest⟩ := exists_bound (R := Continues B a)
      (fun h h' => Sum.inl.inj ((hbody a).functional h h'))
      fun next hnext => ih next hnext fun ⟨c, hc, hbad⟩ => hloops ⟨c, hc.head hnext, hbad⟩
    refine ⟨max enough rest + 1, fun k fuel hk hfuel s hs => ?_⟩
    obtain ⟨fuel, rfl⟩ : ∃ m, fuel = m + 1 := ⟨fuel - 1, by omega⟩
    rw [Finishes, loop, post_bind]
    apply (((hbody a).post k s hs).and (hfinish k (by omega) s hs)).mono
    · rintro (next | b) t ⟨⟨ht, hB⟩, -⟩
      · exact hrest next hB k fuel (by omega) (by omega) t ht
      · trivial
    · exact fun _ _ hfail => hfail.2

theorem runs_out_loop (htotal : total) (k fuel : Nat) : ∀ a s, I s → Loops B hangs a →
    Post (loop (body k) fuel a) s (fun _ _ => False) (fun e _ => e = .outOfFuel) := by
  induction fuel with
  | zero => exact fun _ _ _ _ => rfl
  | succ fuel ih =>
    intro a s hs hloops
    rw [loop, post_bind]
    obtain hhangs | ⟨next, hnext, hloops⟩ := loops_cases hloops
    · exact ((hbody a).runs_out htotal hhangs k s hs).imp (fun _ _ h => h.elim)
    apply ((hbody a).post k s hs).mono
    · rintro r t ⟨ht, hr⟩
      obtain rfl := (hbody a).functional hnext hr
      exact ih next t ht hloops
    · rintro e t ⟨-, hnone⟩
      exact Classical.byContradiction fun hne => hnone htotal hne _ hnext

/-- A loop that can reach finitely many states. -/
theorem loop (hfinite : {c | Relation.ReflTransGen (Continues B) a c}.Finite) :
    Computes I total (fun fuel => loop (body fuel) fuel a) (Returns B a) (Loops B hangs a) where
  functional := returns_functional hbody
  exclusive := returns_exclusive hbody
  post := fun fuel => post_loop hbody fuel fuel a
  finishes := by
    intro hloops
    have hacc := Relation.acc_of_not_reachesCycle hfinite
      fun ⟨c, hc, hcycle⟩ => hloops ⟨c, hc, .inr hcycle⟩
    obtain ⟨enough, hfinish⟩ := finishes_loop hbody hacc hloops
    exact ⟨enough, fun fuel hfuel => hfinish fuel fuel hfuel hfuel⟩
  runs_out := fun htotal hloops fuel s hs => runs_out_loop hbody htotal fuel fuel a s hs hloops

end Loop

end Computes

end EStateM
