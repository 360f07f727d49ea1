import Mathlib.Algebra.BigOperators.Group.Multiset.Basic
import Mathlib.Algebra.Order.Monoid.Canonical.Defs

/-!
# Programs interleaved at the grain of their critical sections

* `Prog`: a sequential program whose steps are atomic actions on a shared
  state; an action can be disabled, and the environment answers it;
* `Pool`: any number of calls in progress, stepped in any order;
* `Run`, `Onward`: the pools reached from the start, and from another pool;
* `weigh`: a sum over resources;
* `Follows`: a program only makes the moves of a discipline that hands out
  resources, and ends with the resources its postcondition names;
* `Run.invariant`: an invariant that every move keeps holds after every run,
  whatever the calls and their interleaving.
-/

namespace Interleave

abbrev Tid := Nat

/-- `atom f k` runs `f` atomically, for the thread running it and for the
environment's answer, and goes on with `k`. `f` is `none` where the thread has
to wait, or where that answer is not a possible one. -/
inductive Prog (S E α : Type) : Type 1
  | ret (a : α) : Prog S E α
  | atom {β : Type} (f : Tid → S → E → Option (β × S)) (k : β → Prog S E α) : Prog S E α

namespace Prog
variable {S E α β γ : Type}

def bind : Prog S E α → (α → Prog S E β) → Prog S E β
  | .ret a, g => g a
  | .atom f k, g => .atom f (fun b => (k b).bind g)

instance : Monad (Prog S E) where
  pure := .ret
  bind := bind

@[simp] theorem pure_eq (a : α) : (pure a : Prog S E α) = .ret a := rfl

@[simp] theorem ret_bind (a : α) (g : α → Prog S E β) : (Prog.ret a >>= g) = g a := rfl

@[simp] theorem atom_bind (f : Tid → S → E → Option (γ × S)) (k : γ → Prog S E α)
    (g : α → Prog S E β) : (Prog.atom f k >>= g) = .atom f (fun b => k b >>= g) := rfl

theorem bind_assoc (p : Prog S E α) (g : α → Prog S E β) (h : β → Prog S E γ) :
    p >>= g >>= h = p >>= fun a => g a >>= h := by
  induction p with
  | ret a => rfl
  | atom f k ih => exact congrArg (Prog.atom f) (funext ih)

end Prog

/-- A call and what is left of it. -/
structure Thread (C S E R : Type) where
  call : C
  prog : Prog S E R

/-- The shared state and every call made so far, finished ones included. A
thread's number is its place in the list. -/
structure Pool (C S E R : Type) where
  shared : S
  threads : List (Thread C S E R)

inductive Act (C E : Type)
  | spawn (c : C)
  | run (t : Tid) (e : E)
  deriving DecidableEq

section
variable {C S E R Res : Type}

def Pool.start (s : S) : Pool C S E R := ⟨s, []⟩

def Pool.step (body : C → Prog S E R) (p : Pool C S E R) : Act C E → Option (Pool C S E R)
  | .spawn c => some { p with threads := p.threads ++ [⟨c, body c⟩] }
  | .run t e =>
    match p.threads[t]? with
    | some ⟨c, .atom f k⟩ =>
      match f t p.shared e with
      | some (b, s) => some ⟨s, p.threads.set t ⟨c, k b⟩⟩
      | none => none
    | _ => none

variable {body : C → Prog S E R} {p p' : Pool C S E R} {t : Tid}

/-- A step of a thread is one atom of its call. -/
theorem Pool.step_run {e : E} (hs : p.step body (.run t e) = some p') :
    ∃ (c : C) (β : Type) (f : Tid → S → E → Option (β × S)) (k : β → Prog S E R) (b : β),
      p.threads[t]? = some ⟨c, .atom f k⟩ ∧ f t p.shared e = some (b, p'.shared) ∧
        p'.threads = p.threads.set t ⟨c, k b⟩ := by
  simp only [Pool.step] at hs
  split at hs
  · rename_i c β f k there
    split at hs
    · rename_i b s hf
      cases hs
      exact ⟨c, β, f, k, b, there, hf, rfl⟩
    · cases hs
  · cases hs

theorem Pool.step_atom {β : Type} {c : C} {f : Tid → S → E → Option (β × S)} {k : β → Prog S E R}
    {e : E} (there : p.threads[t]? = some ⟨c, .atom f k⟩)
    (step : p.step body (.run t e) = some p') : ∃ b, f t p.shared e = some (b, p'.shared) := by
  obtain ⟨_, _, _, _, b, there', hf, -⟩ := Pool.step_run step
  cases there.symm.trans there'
  exact ⟨b, hf⟩

variable {a : Act C E}

/-- After a step a thread is where it was, or its call begins, or is one atom further. -/
theorem Pool.step_threads (hs : p.step body a = some p') {th : Thread C S E R}
    (hth : p'.threads[t]? = some th) :
    (p.threads[t]? = some th ∧ ∀ e, a ≠ .run t e) ∨
    (p.threads.length = t ∧ ∃ c, a = .spawn c ∧ th = ⟨c, body c⟩) ∨
    ∃ (e : E) (c : C) (β : Type) (f : Tid → S → E → Option (β × S)) (k : β → Prog S E R) (b : β),
      a = .run t e ∧ p.threads[t]? = some ⟨c, .atom f k⟩ ∧ f t p.shared e = some (b, p'.shared) ∧
        th = ⟨c, k b⟩ := by
  cases a with
  | spawn c =>
    cases hs
    by_cases old : t < p.threads.length
    · exact .inl ⟨by rwa [List.getElem?_append_left old] at hth, by simp⟩
    · have past := Nat.not_lt.mp old
      rw [List.getElem?_append_right past] at hth
      obtain ⟨here, rfl⟩ := List.getElem?_eq_some_iff.mp hth
      simp only [List.length_singleton] at here
      exact .inr (.inl ⟨by omega, c, rfl, by simp⟩)
  | run u e =>
    obtain ⟨c, β, f, k, b, hu, hf, set⟩ := Pool.step_run hs
    rw [set] at hth
    by_cases same : u = t
    · subst same
      rw [List.getElem?_set_self (List.getElem?_eq_some_iff.mp hu).1] at hth
      exact .inr (.inr ⟨e, c, β, f, k, b, rfl, hu, hf, (Option.some.inj hth).symm⟩)
    · rw [List.getElem?_set_ne same] at hth
      exact .inl ⟨hth, fun _ is => same (Act.run.inj is).1⟩

/-- A call stays the call of its thread. -/
theorem Pool.step_calls (hs : p.step body a = some p') {th : Thread C S E R}
    (hth : p.threads[t]? = some th) : ∃ th', p'.threads[t]? = some th' ∧ th'.call = th.call := by
  have inside := (List.getElem?_eq_some_iff.mp hth).1
  cases a with
  | spawn c =>
    cases hs
    exact ⟨th, by rw [List.getElem?_append_left inside, hth], rfl⟩
  | run u e =>
    obtain ⟨c, _, f, k, b, hu, -, set⟩ := Pool.step_run hs
    rw [set]
    by_cases same : u = t
    · subst same
      cases hu.symm.trans hth
      exact ⟨_, List.getElem?_set_self inside, rfl⟩
    · exact ⟨th, by rw [List.getElem?_set_ne same, hth], rfl⟩

/-- No call is in the middle of executing. -/
def Pool.Quiet (p : Pool C S E R) : Prop := ∀ th ∈ p.threads, ∃ r, th.prog = .ret r

instance (p : Pool C S E R) : Decidable p.Quiet :=
  let returned (th : Thread C S E R) : Bool := match th.prog with
    | .ret _ => true
    | .atom _ _ => false
  decidable_of_iff (∀ th ∈ p.threads, returned th = true) (by
    refine forall₂_congr fun th _ => ?_
    cases h : th.prog <;> simp [returned, h])

/-- What a call has returned with. -/
def Pool.returned (p : Pool C S E R) (t : Tid) : Option (C × R) :=
  match p.threads[t]? with
  | some ⟨c, .ret r⟩ => some (c, r)
  | _ => none

theorem Pool.threads_of_returned {c : C} {r : R} (done : p.returned t = some (c, r)) :
    p.threads[t]? = some ⟨c, .ret r⟩ := by
  unfold Pool.returned at done
  split at done
  · cases done
    assumption
  · cases done

/-- The pools reachable by steps that all satisfy `ok`, a condition on the
shared state before a step and after it. -/
inductive Run (body : C → Prog S E R) (ok : S → S → Prop) (s₀ : S) : Pool C S E R → Prop
  | start : Run body ok s₀ (.start s₀)
  | step {p p' : Pool C S E R} (a : Act C E) : Run body ok s₀ p → p.step body a = some p' →
      ok p.shared p'.shared → Run body ok s₀ p'

variable {ok : S → S → Prop} {s₀ : S}

theorem Run.mono {ok' : S → S → Prop} (weaker : ∀ s s', ok s s' → ok' s s') {p : Pool C S E R}
    (run : Run body ok s₀ p) : Run body ok' s₀ p := by
  induction run with
  | start => exact .start
  | step a _ hs hok ih => exact .step a ih hs (weaker _ _ hok)

/-- What is true after every run may be assumed of every state along one. -/
theorem Run.along {P : S → Prop} (always : ∀ p, Run body ok s₀ p → P p.shared)
    (run : Run body ok s₀ p) : Run body (fun s s' => ok s s' ∧ P s') s₀ p := by
  induction run with
  | start => exact .start
  | step a run hs hok ih => exact .step a ih hs ⟨hok, always _ (.step a run hs hok)⟩

/-- What every step of a run is to leave true is true at its end. -/
theorem Run.last {P : S → Prop} (start : P s₀) (run : Run body (fun _ s => P s) s₀ p) :
    P p.shared := by
  cases run with
  | start => exact start
  | step _ _ _ hok => exact hok

/-- Any number of steps, each meeting a condition on the pools before and after it. -/
abbrev Passage (body : C → Prog S E R) (ok : Pool C S E R → Pool C S E R → Prop) :
    Pool C S E R → Pool C S E R → Prop :=
  Relation.ReflTransGen fun p p' => (∃ a, p.step body a = some p') ∧ ok p p'

theorem Passage.mono {ok ok' : Pool C S E R → Pool C S E R → Prop}
    (weaker : ∀ p p', ok p p' → ok' p p') (passage : Passage body ok p p') :
    Passage body ok' p p' :=
  Relation.ReflTransGen.mono (fun _ _ step => ⟨step.1, weaker _ _ step.2⟩) _ _ passage

/-- Any number of steps, each meeting `ok`. -/
def Onward (body : C → Prog S E R) (ok : S → S → Prop) : Pool C S E R → Pool C S E R → Prop :=
  Passage body fun p p' => ok p.shared p'.shared

theorem Run.onward (run : Run body ok s₀ p) : Onward body ok (.start s₀) p := by
  induction run with
  | start => exact .refl
  | step a _ hs hok ih => exact .tail ih ⟨⟨a, hs⟩, hok⟩

theorem Run.further (run : Run body ok s₀ p) (on : Onward body ok p p') : Run body ok s₀ p' := by
  induction on with
  | refl => exact run
  | tail _ step ih =>
    obtain ⟨⟨a, hs⟩, hok⟩ := step
    exact .step a ih hs hok

theorem Onward.mono {ok' : S → S → Prop} (weaker : ∀ s s', ok s s' → ok' s s')
    (on : Onward body ok p p') : Onward body ok' p p' :=
  Passage.mono (fun _ _ => weaker _ _) on

/-! ## Schedules -/

/-- A line of a schedule: a new call, or so many steps of a thread. -/
inductive Cue (C : Type)
  | spawn (c : C)
  | run (t : Tid) (steps : Nat)
  deriving DecidableEq

/-- So many steps of a thread, each with the first answer that enables it and
all of them accepted by `check`. -/
def Pool.drive (body : C → Prog S E R) (check : Pool C S E R → Pool C S E R → Bool)
    (answers : List E) (t : Tid) : Nat → Pool C S E R → Option (Pool C S E R)
  | 0, p => some p
  | n + 1, p =>
    match answers.findSome? fun e => p.step body (.run t e) with
    | some p' => if check p p' then Pool.drive body check answers t n p' else none
    | none => none

def Pool.play (body : C → Prog S E R) (check : Pool C S E R → Pool C S E R → Bool)
    (answers : List E) : List (Cue C) → Pool C S E R → Option (Pool C S E R)
  | [], p => some p
  | .spawn c :: rest, p =>
    let p' := { p with threads := p.threads ++ [⟨c, body c⟩] }
    if check p p' then Pool.play body check answers rest p' else none
  | .run t n :: rest, p => (p.drive body check answers t n).bind (Pool.play body check answers rest)

variable {check : Pool C S E R → Pool C S E R → Bool} {answers : List E}

theorem Passage.drive {n : Nat} (h : p.drive body check answers t n = some p') :
    Passage body (check · · = true) p p' := by
  induction n generalizing p with
  | zero =>
    cases h
    exact .refl
  | succ n ih =>
    simp only [Pool.drive] at h
    split at h
    · rename_i next found
      split at h
      · rename_i accepted
        obtain ⟨e, -, hs⟩ := List.exists_of_findSome?_eq_some found
        exact .head ⟨⟨_, hs⟩, accepted⟩ (ih h)
      · cases h
    · cases h

theorem Passage.play {cues : List (Cue C)} (h : p.play body check answers cues = some p') :
    Passage body (check · · = true) p p' := by
  induction cues generalizing p with
  | nil =>
    cases h
    exact .refl
  | cons cue rest ih =>
    cases cue with
    | spawn c =>
      simp only [Pool.play] at h
      split at h
      · rename_i accepted
        exact .head ⟨⟨.spawn c, rfl⟩, accepted⟩ (ih h)
      · cases h
    | run t n =>
      simp only [Pool.play, Option.bind_eq_some_iff] at h
      obtain ⟨next, hn, hrest⟩ := h
      exact (Passage.drive hn).trans (ih hrest)

/-- A schedule that is checked on the shared state. -/
theorem Onward.play {ok : S → S → Prop} [∀ s s', Decidable (ok s s')] {cues : List (Cue C)}
    (h : p.play body (fun p p' => decide (ok p.shared p'.shared)) answers cues = some p') :
    Onward body ok p p' :=
  Passage.mono (fun _ _ => of_decide_eq_true) (Passage.play h)

/-- Schedules one after the other, each with answers of its own. -/
def Pool.enact (body : C → Prog S E R) (check : Pool C S E R → Pool C S E R → Bool) :
    List (List E × List (Cue C)) → Pool C S E R → Option (Pool C S E R)
  | [], p => some p
  | scene :: rest, p =>
    (p.play body check scene.1 scene.2).bind (Pool.enact body check rest)

theorem Passage.enact {ok : Pool C S E R → Pool C S E R → Prop} [∀ p p', Decidable (ok p p')]
    {scenes : List (List E × List (Cue C))}
    (h : p.enact body (fun p p' => decide (ok p p')) scenes = some p') : Passage body ok p p' := by
  induction scenes generalizing p with
  | nil =>
    cases h
    exact .refl
  | cons scene rest ih =>
    obtain ⟨next, first, second⟩ := Option.bind_eq_some_iff.mp h
    exact (Passage.mono (fun _ _ => of_decide_eq_true) (Passage.play first)).trans (ih second)

/-- What such schedules show of the state they end in. -/
theorem Passage.of_enact (body : C → Prog S E R) (ok : Pool C S E R → Pool C S E R → Prop)
    [∀ p p', Decidable (ok p p')] (s₀ : S) (scenes : List (List E × List (Cue C)))
    (P : Pool C S E R → Prop) [DecidablePred P]
    (enacted : (((Pool.start s₀).enact body (fun p p' => decide (ok p p')) scenes).any fun p =>
      decide (P p)) = true) :
    ∃ p, Passage body ok (.start s₀) p ∧ P p := by
  obtain ⟨p, played, shown⟩ := Option.any_eq_true _ _ |>.mp enacted
  exact ⟨p, Passage.enact played, of_decide_eq_true shown⟩

theorem Run.of_enact (body : C → Prog S E R) (ok : S → S → Prop) [∀ s s', Decidable (ok s s')]
    (s₀ : S) (scenes : List (List E × List (Cue C))) (P : Pool C S E R → Prop) [DecidablePred P]
    (enacted : (((Pool.start s₀).enact body (fun p p' => decide (ok p.shared p'.shared))
      scenes).any fun p => decide (P p)) = true) :
    ∃ p, Run body ok s₀ p ∧ P p := by
  obtain ⟨p, passage, shown⟩ := Passage.of_enact body _ s₀ scenes P enacted
  exact ⟨p, Run.start.further passage, shown⟩

/-- And of the states that two such parts end in. -/
theorem Run.of_enacts (body : C → Prog S E R) (ok : S → S → Prop) [∀ s s', Decidable (ok s s')]
    (s₀ : S) (scenes scenes' : List (List E × List (Cue C)))
    (P : Pool C S E R → Pool C S E R → Prop) [∀ p p', Decidable (P p p')]
    (enacted : (((Pool.start s₀).enact body (fun p p' => decide (ok p.shared p'.shared)) scenes).any
      fun p => (p.enact body (fun p p' => decide (ok p.shared p'.shared)) scenes').any
        fun p' => decide (P p p')) = true) :
    ∃ p p', Run body ok s₀ p ∧ Onward body ok p p' ∧ P p p' := by
  obtain ⟨p, first, enacted⟩ := Option.any_eq_true _ _ |>.mp enacted
  obtain ⟨p', second, shown⟩ := Option.any_eq_true _ _ |>.mp enacted
  exact ⟨p, p', Run.start.further (Passage.enact first), Passage.enact second,
    of_decide_eq_true shown⟩

/-! ## Moves and resources -/

/-- What a discipline lets a thread do: change the shared state while its own
resources change with it. -/
abbrev Moves (S Res : Type) := Tid → S → Multiset Res → S → Multiset Res → Prop

/-- A move made by a thread that holds more than the move needs. -/
def Framed (move : Moves S Res) : Moves S Res := fun t s M s' M' =>
  ∃ F M₁ M₁', M = F + M₁ ∧ M' = F + M₁' ∧ move t s M₁ s' M₁'

variable {move : Moves S Res}

theorem Framed.of {s s' : S} {M M' : Multiset Res} (h : move t s M s' M') :
    Framed move t s M s' M' :=
  ⟨0, M, M', (zero_add _).symm, (zero_add _).symm, h⟩

theorem Framed.frame {s s' : S} {M M' : Multiset Res} (h : Framed move t s M s' M')
    (F : Multiset Res) : Framed move t s (F + M) s' (F + M') := by
  obtain ⟨F₁, M₁, M₁', rfl, rfl, hm⟩ := h
  exact ⟨F + F₁, M₁, M₁', (add_assoc _ _ _).symm, (add_assoc _ _ _).symm, hm⟩

/-- Run by thread `t` holding `M`, every step of the program is a move, and
the program ends with a result and resources that satisfy `Q`. -/
def Follows (move : Moves S Res) (t : Tid) {α : Type} :
    Prog S E α → (α → Multiset Res → Prop) → Multiset Res → Prop
  | .ret a, Q, M => Q a M
  | .atom f k, Q, M => ∀ s e b s', f t s e = some (b, s') →
      ∃ M', Framed move t s M s' M' ∧ Follows move t (k b) Q M'

namespace Follows
variable {move : Moves S Res} {t : Tid} {α β : Type} {M : Multiset Res}

variable {Q : α → Multiset Res → Prop}

theorem ret {a : α} (h : Q a M) : Follows move t (.ret a : Prog S E α) Q M := h

variable {p : Prog S E α}

theorem weaken {Q' : α → Multiset Res → Prop} (h : Follows move t p Q M)
    (hq : ∀ a M', Q a M' → Q' a M') : Follows move t p Q' M := by
  induction p generalizing M with
  | ret a => exact hq a M h
  | atom f k ih =>
    intro s e b s' hf
    obtain ⟨M', hm, hk⟩ := h s e b s' hf
    exact ⟨M', hm, ih b hk⟩

theorem bind {g : α → Prog S E β} {Q' : β → Multiset Res → Prop} (h : Follows move t p Q M)
    (hg : ∀ a M', Q a M' → Follows move t (g a) Q' M') : Follows move t (p >>= g) Q' M := by
  induction p generalizing M with
  | ret a => exact hg a M h
  | atom f k ih =>
    intro s e b s' hf
    obtain ⟨M', hm, hk⟩ := h s e b s' hf
    exact ⟨M', hm, ih b hk⟩

/-- The resources a program does not use are still there when it ends. -/
theorem frame (h : Follows move t p Q M) (F : Multiset Res) :
    Follows move t p (fun a M' => ∃ M₁, M' = F + M₁ ∧ Q a M₁) (F + M) := by
  induction p generalizing M with
  | ret a => exact ⟨M, rfl, h⟩
  | atom f k ih =>
    intro s e b s' hf
    obtain ⟨M', hm, hk⟩ := h s e b s' hf
    exact ⟨F + M', hm.frame F, ih b hk⟩

/-- A part of a program that uses some of the resources in hand. -/
theorem seq {g : α → Prog S E β} {Q' : β → Multiset Res → Prop} {F : Multiset Res}
    (h : Follows move t p Q M) (hg : ∀ a M', Q a M' → Follows move t (g a) Q' (F + M')) :
    Follows move t (p >>= g) Q' (F + M) := by
  refine bind (h.frame F) ?_
  rintro a _ ⟨M', rfl, hq⟩
  exact hg a M' hq

section
variable {g : α → Prog S E β} {Q' : β → Multiset Res → Prop} {F : Multiset Res}

/-- A part of which it is known what it leaves. -/
theorem onto {N : α → Multiset Res} (h : Follows move t p (fun a M' => M' = N a) M)
    (hg : ∀ a, Follows move t (g a) Q' (N a)) : Follows move t (p >>= g) Q' M := by
  refine bind h ?_
  rintro a _ rfl
  exact hg a

/-- One that uses some of the resources in hand. -/
theorem beside {N : α → Multiset Res} (h : Follows move t p (fun a M' => M' = N a) M)
    (hg : ∀ a, Follows move t (g a) Q' (F + N a)) : Follows move t (p >>= g) Q' (F + M) := by
  refine seq h ?_
  rintro a _ rfl
  exact hg a

/-- One that uses them up. -/
theorem spend (h : Follows move t p (fun _ M' => M' = 0) M) (hg : ∀ a, Follows move t (g a) Q' F) :
    Follows move t (p >>= g) Q' (F + M) := by
  refine beside h fun a => ?_
  rw [add_zero]
  exact hg a

end

end Follows

/-! ## Weighing resources -/

section
variable {A : Type} [AddCommMonoid A] (f : Res → A)

def weigh (M : Multiset Res) : A := (M.map f).sum

@[simp] theorem weigh_zero : weigh f 0 = 0 := rfl

@[simp] theorem weigh_add (M M' : Multiset Res) : weigh f (M + M') = weigh f M + weigh f M' := by
  simp [weigh]

@[simp] theorem weigh_singleton (x : Res) : weigh f {x} = f x := by
  simp [weigh]

@[simp] theorem weigh_cons (x : Res) (M : Multiset Res) :
    weigh f (x ::ₘ M) = f x + weigh f M := by
  simp [weigh]

theorem weigh_eq_zero {f : Res → A} {M : Multiset Res} (h : ∀ x ∈ M, f x = 0) : weigh f M = 0 := by
  refine Multiset.sum_eq_zero fun n hn => ?_
  obtain ⟨x, hx, rfl⟩ := Multiset.mem_map.mp hn
  exact h x hx

theorem map_weigh {B : Type} [AddCommMonoid B] (φ : A →+ B) (f : Res → A) (M : Multiset Res) :
    φ (weigh f M) = weigh (fun x => φ (f x)) M := by
  simp [weigh, map_multiset_sum]

theorem weigh_mono {f g : Res → Nat} (h : ∀ x, f x ≤ g x) (M : Multiset Res) :
    weigh f M ≤ weigh g M := by
  induction M using Multiset.induction_on with
  | empty => exact le_rfl
  | cons x M ih => simpa using Nat.add_le_add (h x) ih

theorem le_weigh [PartialOrder A] [CanonicallyOrderedAdd A] {f : Res → A} {M : Multiset Res}
    {x : Res} (h : x ∈ M) : f x ≤ weigh f M := by
  obtain ⟨M', rfl⟩ := Multiset.exists_cons_of_mem h
  rw [weigh_cons]
  exact le_self_add

end

/-! ## Invariants of runs -/

/-- Thread by thread, the resources each call in progress holds. -/
def Matched (move : Moves S Res) (post : Tid → C → R → Multiset Res → Prop) (p : Pool C S E R)
    (held : List (Multiset Res)) : Prop :=
  held.length = p.threads.length ∧
  ∀ (t : Nat) (ht : t < p.threads.length) (hh : t < held.length),
    Follows move t p.threads[t].prog (post t p.threads[t].call) held[t]

theorem sum_set_split (held : List (Multiset Res)) (t : Nat) (ht : t < held.length)
    (M : Multiset Res) : ∃ F, held.sum = F + held[t] ∧ (held.set t M).sum = F + M := by
  refine ⟨(held.take t).sum + (held.drop (t + 1)).sum, ?_, ?_⟩
  · have split : held = held.take t ++ held[t] :: held.drop (t + 1) := by simp
    calc held.sum = (held.take t ++ held[t] :: held.drop (t + 1)).sum := by rw [← split]
      _ = _ := by rw [List.sum_append, List.sum_cons, add_right_comm, ← add_assoc]
  · rw [List.sum_set, if_pos ht, add_right_comm]

/-- As `Matched`, for moves that depend on the call, and with a say on what each
call in progress holds. -/
def Allotted (move : C → Moves S Res) (post : Tid → C → R → Multiset Res → Prop)
    (has : C → Multiset Res → Prop) (p : Pool C S E R) (held : List (Multiset Res)) : Prop :=
  held.length = p.threads.length ∧
  ∀ (t : Nat) (ht : t < p.threads.length) (hh : t < held.length),
    Follows (move p.threads[t].call) t p.threads[t].prog (post t p.threads[t].call) held[t] ∧
      has p.threads[t].call held[t]

variable {post : Tid → C → R → Multiset Res → Prop} {has : C → Multiset Res → Prop}
  {held : List (Multiset Res)}

theorem step_allotted {move : C → Moves S Res}
    (follows : ∀ c t, Follows (move c) t (body c) (post t c) 0) (nothing : ∀ c, has c 0)
    (keep : ∀ c t s M s' M', Framed (move c) t s M s' M' → has c M → has c M')
    (hs : p.step body a = some p') (hm : Allotted move post has p held) :
    ∃ held', Allotted move post has p' held' ∧
      ((∃ c, a = .spawn c ∧ p'.shared = p.shared ∧ held'.sum = held.sum) ∨
        ∃ th t e F M M', a = .run t e ∧ th ∈ p.threads ∧ held.sum = F + M ∧ held'.sum = F + M' ∧
          move th.call t p.shared M p'.shared M') := by
  obtain ⟨len, each⟩ := hm
  cases a with
  | spawn c =>
    simp only [Pool.step, Option.some.injEq] at hs
    subst hs
    refine ⟨held ++ [0], ⟨by simp [len], ?_⟩, .inl ⟨c, rfl, rfl, by simp⟩⟩
    intro t ht hh
    by_cases old : t < p.threads.length
    · simpa [List.getElem_append_left, old, len] using each t old (len ▸ old)
    · have bound : t < p.threads.length + 1 := by simpa using ht
      obtain rfl : t = p.threads.length := by omega
      simpa [List.getElem_append_right, len] using ⟨follows c _, nothing c⟩
  | run t e =>
    obtain ⟨c, _, f, k, b, hth, hf, set⟩ := Pool.step_run hs
    obtain ⟨ht, hget⟩ := List.getElem?_eq_some_iff.mp hth
    have hh : t < held.length := len ▸ ht
    obtain ⟨hprog, hhas⟩ := each t ht hh
    rw [hget] at hprog hhas
    obtain ⟨M', framed, hk⟩ := hprog p.shared e b _ hf
    have hhas' := keep c t _ _ _ _ framed hhas
    obtain ⟨F₁, M₁, M₁', hM, hM', hmove⟩ := framed
    obtain ⟨F, hsum, hsum'⟩ := sum_set_split held t hh M'
    refine ⟨held.set t M', ⟨by simp [len, set], ?_⟩,
      .inr ⟨_, t, e, F + F₁, M₁, M₁', rfl, List.mem_of_getElem? hth, ?_, ?_, hmove⟩⟩
    · intro u hu hh'
      simp only [set, List.length_set] at hu hh' ⊢
      by_cases eq : u = t
      · subst eq
        simpa using ⟨hk, hhas'⟩
      · simpa [List.getElem_set, Ne.symm eq] using each u hu hh'
    · rw [hsum, hM, add_assoc]
    · rw [hsum', hM', add_assoc]

/-- What the moves of calls of some kind keep, in a run of such calls. -/
theorem Run.allotted_among {move : C → Moves S Res} (Inv : S → Multiset Res → Prop)
    (has : C → Multiset Res → Prop) (kind : C → Prop)
    (follows : ∀ c t, Follows (move c) t (body c) (post t c) 0) (nothing : ∀ c, has c 0)
    (keep : ∀ c t s M s' M', Framed (move c) t s M s' M' → has c M → has c M') (start : Inv s₀ 0)
    (step : ∀ c t s F M s' M', kind c → Inv s (F + M) → move c t s M s' M' → ok s s' →
      Inv s' (F + M'))
    (run : Run body ok s₀ p) (calls : ∀ th ∈ p.threads, kind th.call) :
    ∃ held, Allotted move post has p held ∧ Inv p.shared held.sum := by
  induction run with
  | start => exact ⟨[], ⟨rfl, by intro t ht; simp [Pool.start] at ht⟩, start⟩
  | @step p p' a _ hs hok ih =>
    have before : ∀ th ∈ p.threads, kind th.call := by
      intro th hth
      obtain ⟨t, there⟩ := List.getElem?_of_mem hth
      obtain ⟨th', there', same⟩ := Pool.step_calls hs there
      exact same ▸ calls th' (List.mem_of_getElem? there')
    obtain ⟨held, hm, hi⟩ := ih before
    obtain ⟨held', hm', ⟨-, -, same⟩ | ⟨th, t, -, F, M, M', -, hth, hF, hF', hmove⟩⟩ :=
      step_allotted follows nothing keep hs hm
    · exact ⟨held', hm', by rw [same.1, same.2]; exact hi⟩
    · refine ⟨held', hm', ?_⟩
      rw [hF']
      exact step th.call t _ F M _ M' (before th hth) (hF ▸ hi) hmove hok

theorem Run.allotted {move : C → Moves S Res} (Inv : S → Multiset Res → Prop)
    (has : C → Multiset Res → Prop) (follows : ∀ c t, Follows (move c) t (body c) (post t c) 0)
    (nothing : ∀ c, has c 0)
    (keep : ∀ c t s M s' M', Framed (move c) t s M s' M' → has c M → has c M') (start : Inv s₀ 0)
    (step : ∀ c t s F M s' M', Inv s (F + M) → move c t s M s' M' → ok s s' → Inv s' (F + M'))
    (run : Run body ok s₀ p) :
    ∃ held, Allotted move post has p held ∧ Inv p.shared held.sum :=
  run.allotted_among Inv has (fun _ => True) follows nothing keep start
    (fun c t s F M s' M' _ => step c t s F M s' M') fun _ _ => trivial

theorem matched_iff :
    Matched move post p held ↔ Allotted (fun _ => move) post (fun _ _ => True) p held := by
  simp [Matched, Allotted]

theorem step_matched (follows : ∀ c t, Follows move t (body c) (post t c) 0)
    (hs : p.step body a = some p') (hm : Matched move post p held) :
    ∃ held', Matched move post p' held' ∧
      ((∃ c, a = .spawn c ∧ p'.shared = p.shared ∧ held'.sum = held.sum) ∨
        ∃ t e F M M', a = .run t e ∧ held.sum = F + M ∧ held'.sum = F + M' ∧
          move t p.shared M p'.shared M') := by
  obtain ⟨held', hm', spawned | ⟨-, t, e, F, M, M', is, -, moved⟩⟩ :=
    step_allotted follows (fun _ => trivial) (fun _ _ _ _ _ _ _ _ => trivial) hs
      (matched_iff.mp hm)
  · exact ⟨held', matched_iff.mpr hm', .inl spawned⟩
  · exact ⟨held', matched_iff.mpr hm', .inr ⟨t, e, F, M, M', is, moved⟩⟩

/-- If every call follows the discipline, what every move keeps is true after
every run, for the resources the calls then hold. -/
theorem Run.invariant (Inv : S → Multiset Res → Prop)
    (follows : ∀ c t, Follows move t (body c) (post t c) 0) (start : Inv s₀ 0)
    (keep : ∀ t s F M s' M', Inv s (F + M) → move t s M s' M' → ok s s' → Inv s' (F + M'))
    (run : Run body ok s₀ p) : ∃ held, Matched move post p held ∧ Inv p.shared held.sum := by
  obtain ⟨held, hm, hi⟩ := Run.allotted Inv (fun _ _ => True) follows (fun _ => trivial)
    (fun _ _ _ _ _ _ _ _ => trivial) start (fun _ => keep) run
  exact ⟨held, matched_iff.mpr hm, hi⟩

/-- What every move keeps is true from one pool to the next, and the steps in
between are as the moves are. -/
theorem Onward.invariant {X : S → S → Prop} (Inv : S → Multiset Res → Prop)
    (follows : ∀ c t, Follows move t (body c) (post t c) 0) (still : ∀ s M, Inv s M → X s s)
    (keep : ∀ t s F M s' M', Inv s (F + M) → move t s M s' M' → ok s s' → Inv s' (F + M') ∧ X s s')
    (on : Onward body ok p p') (hm : Matched move post p held) (hi : Inv p.shared held.sum) :
    Onward body (fun s s' => ok s s' ∧ X s s') p p' ∧
      ∃ held', Matched move post p' held' ∧ Inv p'.shared held'.sum := by
  induction on with
  | refl => exact ⟨.refl, held, hm, hi⟩
  | tail _ step ih =>
    obtain ⟨⟨a, hs⟩, hok⟩ := step
    obtain ⟨on, held, hm, hi⟩ := ih
    obtain ⟨held', hm', ⟨-, -, same⟩ | ⟨t, -, F, M, M', -, hF, hF', hmove⟩⟩ :=
      step_matched follows hs hm
    · refine ⟨on.tail ⟨⟨a, hs⟩, hok, ?_⟩, held', hm', by rw [same.1, same.2]; exact hi⟩
      rw [same.1]
      exact still _ _ hi
    · obtain ⟨hi', hX⟩ := keep t _ F M _ M' (hF ▸ hi) hmove hok
      exact ⟨on.tail ⟨⟨a, hs⟩, hok, hX⟩, held', hm', hF' ▸ hi'⟩

theorem mem_of_mem_sum {x : Res} (h : x ∈ held.sum) : ∃ M ∈ held, x ∈ M := by
  induction held with
  | nil => simp at h
  | cons M rest ih =>
    rw [List.sum_cons, Multiset.mem_add] at h
    rcases h with h | h
    · exact ⟨M, List.mem_cons_self, h⟩
    · obtain ⟨M', hM', hx⟩ := ih h
      exact ⟨M', List.mem_cons_of_mem _ hM', hx⟩

/-- What the threads hold weighs together what it weighs for each of them. -/
theorem Allotted.weigh_eq {move : C → Moves S Res} {A : Type} [AddCommMonoid A] {f : Res → A}
    {g : Thread C S E R → A} (allotted : Allotted move post has p held)
    (each : ∀ t, ∀ th ∈ p.threads, ∀ M, Follows (move th.call) t th.prog (post t th.call) M →
      has th.call M → weigh f M = g th) :
    weigh f held.sum = (p.threads.map g).sum := by
  have parts : held.map (weigh f) = p.threads.map g := by
    refine List.ext_getElem (by simp [allotted.1]) fun t hh ht => ?_
    simp only [List.length_map] at hh ht
    obtain ⟨follows, holds⟩ := allotted.2 t ht hh
    simpa using each t _ (List.getElem_mem ht) _ follows holds
  rw [← parts]
  clear allotted parts
  induction held with
  | nil => rfl
  | cons M rest ih => rw [List.sum_cons, weigh_add, ih, List.map_cons, List.sum_cons]

/-- What weighs nothing for any thread weighs nothing together. -/
theorem Allotted.weigh_eq_zero {move : C → Moves S Res} {A : Type} [AddCommMonoid A] {f : Res → A}
    (allotted : Allotted move post has p held)
    (nothing : ∀ t, ∀ th ∈ p.threads, ∀ M, Follows (move th.call) t th.prog (post t th.call) M →
      has th.call M → weigh f M = 0) :
    weigh f held.sum = 0 := by
  rw [allotted.weigh_eq (g := fun _ => 0) nothing]
  simp

/-- Once every call has returned, what is left is what calls may return with. -/
theorem Matched.quiet {left : Res → Prop} (only : ∀ t c r M, post t c r M → ∀ x ∈ M, left x)
    (hm : Matched move post p held) (quiet : p.Quiet) : ∀ x ∈ held.sum, left x := by
  have each : ∀ M ∈ held, ∀ x ∈ M, left x := by
    intro M hM
    obtain ⟨t, hh, rfl⟩ := List.getElem_of_mem hM
    have ht : t < p.threads.length := hm.1 ▸ hh
    have hf := hm.2 t ht hh
    obtain ⟨r, hr⟩ := quiet _ (List.getElem_mem ht)
    rw [hr] at hf
    exact only t _ r _ hf
  intro x hx
  obtain ⟨M, hM, hxM⟩ := mem_of_mem_sum hx
  exact each M hM x hxM

/-- What the call of thread `t` has returned with. -/
theorem Matched.returned (hm : Matched move post p held) {c : C} {r : R}
    (done : p.returned t = some (c, r)) : ∃ M ≤ held.sum, post t c r M := by
  obtain ⟨ht, hget⟩ := List.getElem?_eq_some_iff.mp (Pool.threads_of_returned done)
  have hh : t < held.length := hm.1.symm ▸ ht
  have hf := hm.2 t ht hh
  rw [hget] at hf
  obtain ⟨F, hsum, -⟩ := sum_set_split held t hh 0
  exact ⟨held[t], by rw [hsum]; exact Multiset.le_add_left _ _, hf⟩

end

end Interleave
