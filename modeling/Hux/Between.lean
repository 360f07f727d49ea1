import Hux.Alone

/-!
# A check, and the act it is made for

A program finds something in one section and acts on it in a later one. In between,
others can make it false.

* `Idles`: a program that never acts;
* `Unacted`: what may be left of a program that has not come to an act;
* `Between`: a thread that has made its check and not acted yet;
* `Guarded`: a program that acts only after a check;
* `Passage.finds`: where no thread that is in between loses what it found, every act
  finds it.
-/

namespace Interleave
open Relation (ReflTransGen)

section
variable {C S E A ι α : Type}

variable (act : ι → S → S → Prop) (found : ι → S → Prop)

/-- An atom with which thread `t` never acts. -/
def Inert (t : Tid) {β : Type} (f : Tid → S → E → Option (β × S)) : Prop :=
  ∀ s e b s', f t s e = some (b, s') → ∀ i, ¬act i s s'

/-- A program with which thread `t` never acts. -/
def Idles (t : Tid) : Prog S E α → Prop
  | .ret _ => True
  | .atom f k => Inert act t f ∧ ∀ s e b s', f t s e = some (b, s') → Idles t (k b)

/-- What may be left of a program before its first atom that can act is passed. -/
inductive Unacted (t : Tid) (first : Prog S E A) : Prog S E A → Prop
  | first : Unacted t first first
  | step {β : Type} {f : Tid → S → E → Option (β × S)} {k : β → Prog S E A} (b : β) :
      Unacted t first (.atom f k) → Inert act t f → Unacted t first (k b)

/-- The thread's call goes on from where `checked` says it has made its check of `i`,
and has not come to its act. -/
def Between (checked : ι → C → Prog S E A → Prop) (i : ι) (p : Pool C S E A) (t : Tid) : Prop :=
  ∃ th first, p.threads[t]? = some th ∧ (∀ a, th.prog ≠ .ret a) ∧ checked i th.call first ∧
    Unacted act t first th.prog

/-- Run by thread `t`, the program acts on nothing but what it has found last, `x`. -/
def Guarded (checked : ι → Prog S E A → Prop) (t : Tid) : Option ι → Prog S E A → Prop
  | _, .ret _ => True
  | x, .atom f k =>
    (Inert act t f ∧ ∀ s e b s', f t s e = some (b, s') →
      Guarded checked t x (k b) ∨
        ∃ i, found i s' ∧ checked i (k b) ∧ Guarded checked t (some i) (k b)) ∨
    ∃ i, x = some i ∧ ∀ s e b s', f t s e = some (b, s') →
      (∀ j, act j s s' → j = i) ∧ Guarded checked t none (k b)

variable {act found} {checked : ι → Prog S E A → Prop} {t : Tid} {x : Option ι}

theorem Idles.of_steps {p : Prog S E α} (steps : Steps (fun s s' => ∀ i, ¬act i s s') p) :
    Idles act t p := by
  induction p with
  | ret a => trivial
  | atom f k ih => exact ⟨steps.1 t, fun _ _ b _ _ => ih b (steps.2 b)⟩

theorem Idles.of_follows {Res : Type} {move : Moves S Res} {Q : α → Multiset Res → Prop}
    {M : Multiset Res} {p : Prog S E α} (follows : Follows move t p Q M)
    (never : ∀ s M s' M', move t s M s' M' → ∀ i, ¬act i s s') : Idles act t p := by
  induction p generalizing M with
  | ret a => trivial
  | atom f k ih =>
    refine ⟨fun s e b s' step => ?_, fun s e b s' step => ?_⟩
    · obtain ⟨M', ⟨_, M₁, M₁', -, -, move⟩, -⟩ := follows s e b s' step
      exact never s M₁ s' M₁' move
    · obtain ⟨M', -, rest⟩ := follows s e b s' step
      exact ih b rest

theorem Guarded.past {p : Prog S E α} {g : α → Prog S E A} (idles : Idles act t p)
    (rest : ∀ a, Guarded act found checked t x (g a)) :
    Guarded act found checked t x (p >>= g) := by
  induction p with
  | ret a => exact rest a
  | atom f k ih => exact .inl ⟨idles.1, fun s e b s' step => .inl (ih b (idles.2 s e b s' step))⟩

theorem Guarded.idle {p : Prog S E A} (idles : Idles act t p) :
    Guarded act found checked t x p := by
  induction p with
  | ret a => trivial
  | atom f k ih => exact .inl ⟨idles.1, fun s e b s' step => .inl (ih b (idles.2 s e b s' step))⟩

theorem Guarded.ite {c : Prop} [Decidable c] {p q : Prog S E A}
    (yes : Guarded act found checked t x p) (no : Guarded act found checked t x q) :
    Guarded act found checked t x (if c then p else q) := by
  split
  · exact yes
  · exact no

end

section
variable {C S E A ι : Type} {body : C → Prog S E A} {ok : Pool C S E A → Pool C S E A → Prop}
  {act : ι → S → S → Prop} {found : ι → S → Prop} {checked : ι → C → Prog S E A → Prop}
  {p p' : Pool C S E A}

/-- Every thread acts on nothing but what it found, and whoever is in between still
finds it so. -/
def Pool.Wary (act : ι → S → S → Prop) (found : ι → S → Prop)
    (checked : ι → C → Prog S E A → Prop) (p : Pool C S E A) : Prop :=
  ∀ (t : Tid) th, p.threads[t]? = some th →
    ∃ x, Guarded act found (checked · th.call) t x th.prog ∧
      ∀ i, x = some i → found i p.shared ∧ Between act checked i p t

/-- The step takes nothing from a thread in between, as long as no other thread than one
in between acts in it. -/
def Spares (act : ι → S → S → Prop) (found : ι → S → Prop)
    (checked : ι → C → Prog S E A → Prop) (p p' : Pool C S E A) : Prop :=
  ∀ i t, Between act checked i p t → found i p.shared →
    (∀ j, act j p.shared p'.shared → ∃ u, u ≠ t ∧ Between act checked j p u) → found i p'.shared

theorem Between.unacted {i : ι} {t : Tid} (between : Between act checked i p t)
    {th : Thread C S E A} (hth : p.threads[t]? = some th) :
    ∃ first, checked i th.call first ∧ Unacted act t first th.prog := by
  obtain ⟨th', first, there, -, check, unacted⟩ := between
  cases hth.symm.trans there
  exact ⟨first, check, unacted⟩

/-- At most one call has not returned. -/
def Pool.Serial (p : Pool C S E A) : Prop :=
  ∀ t < p.threads.length, ∀ u < p.threads.length,
    p.returned t = none → p.returned u = none → t = u

instance [DecidableEq C] [DecidableEq A] (p : Pool C S E A) : Decidable p.Serial :=
  inferInstanceAs (Decidable (∀ t < _, ∀ u < _, _ → _ → _))

theorem Between.unreturned {i : ι} {t : Tid} (between : Between act checked i p t) :
    t < p.threads.length ∧ p.returned t = none := by
  obtain ⟨th, -, there, going, -⟩ := between
  refine ⟨(List.getElem?_eq_some_iff.mp there).1, ?_⟩
  cases done : p.returned t with
  | none => rfl
  | some r =>
    cases there.symm.trans (Pool.threads_of_returned done)
    exact absurd rfl (going _)

theorem Pool.Serial.eq {i j : ι} {t u : Tid} (serial : p.Serial)
    (first : Between act checked i p t) (second : Between act checked j p u) : t = u :=
  serial t first.unreturned.1 u second.unreturned.1 first.unreturned.2 second.unreturned.2

/-- A thread that is guarded and has something left to do, or nothing. -/
theorem Pool.Wary.intro {t : Tid} {th : Thread C S E A} (hth : p.threads[t]? = some th)
    (x : Option ι) (guarded : Guarded act found (checked · th.call) t x th.prog)
    (still : ∀ i, x = some i → found i p.shared ∧
      ∃ first, checked i th.call first ∧ Unacted act t first th.prog) :
    ∃ x, Guarded act found (checked · th.call) t x th.prog ∧
      ∀ i, x = some i → found i p.shared ∧ Between act checked i p t := by
  by_cases done : ∃ a, th.prog = .ret a
  · obtain ⟨a, is⟩ := done
    exact ⟨none, is ▸ trivial, by simp⟩
  · refine ⟨x, guarded, fun i is => ?_⟩
    obtain ⟨finds, first, check, unacted⟩ := still i is
    exact ⟨finds, th, first, hth, fun a is => done ⟨a, is⟩, check, unacted⟩

/-- Whoever acts in a step is in between, and finds what it acts on. -/
theorem Pool.Wary.acts (never : ∀ i s, ¬act i s s) (wary : p.Wary act found checked) {a : Act C E}
    (hs : p.step body a = some p') {i : ι} (acts : act i p.shared p'.shared) :
    ∃ u e, a = .run u e ∧ found i p.shared ∧ Between act checked i p u := by
  cases a with
  | spawn c =>
    cases hs
    exact absurd acts (never i _)
  | run u e =>
    obtain ⟨c, _, f, k, b, there, hf, -⟩ := Pool.step_run hs
    obtain ⟨x, guarded, still⟩ := wary u _ there
    rcases guarded with ⟨inert, -⟩ | ⟨i', is, only⟩
    · exact absurd acts (inert _ _ _ _ hf i)
    · cases (only _ _ _ _ hf).1 i acts
      exact ⟨u, e, rfl, still i is⟩

theorem Pool.Wary.step (bodies : ∀ t c, Guarded act found (checked · c) t none (body c))
    (never : ∀ i s, ¬act i s s) (wary : p.Wary act found checked) {a : Act C E}
    (hs : p.step body a = some p') (spares : Spares act found checked p p') :
    p'.Wary act found checked := by
  intro t th hth
  rcases Pool.step_threads hs hth with
    ⟨old, other⟩ | ⟨-, c, -, rfl⟩ | ⟨e, c, _, f, k, b, is, there, hf, rfl⟩
  · obtain ⟨x, guarded, still⟩ := wary t th old
    refine Pool.Wary.intro hth x guarded fun i is => ?_
    obtain ⟨finds, between⟩ := still i is
    refine ⟨spares i t between finds fun j acts => ?_, between.unacted old⟩
    obtain ⟨u, e, rfl, -, actor⟩ := wary.acts never hs acts
    exact ⟨u, fun same => other e (same ▸ rfl), actor⟩
  · exact ⟨none, bodies t c, by simp⟩
  · obtain ⟨x, guarded, still⟩ := wary t _ there
    rcases guarded with ⟨inert, next⟩ | ⟨i, -, only⟩
    · have idle := inert _ _ _ _ hf
      rcases next _ _ _ _ hf with guarded | ⟨i, finds, check, guarded⟩
      · refine Pool.Wary.intro hth x guarded fun i is => ?_
        obtain ⟨finds, between⟩ := still i is
        obtain ⟨first, check, unacted⟩ := between.unacted there
        exact ⟨spares i t between finds fun j acts => absurd acts (idle j),
          first, check, unacted.step b inert⟩
      · refine Pool.Wary.intro hth (some i) guarded fun _ is => ?_
        cases is
        exact ⟨finds, _, check, .first⟩
    · exact ⟨none, (only _ _ _ _ hf).2, by simp⟩

theorem Pool.Wary.start {s₀ : S} : (.start s₀ : Pool C S E A).Wary act found checked := by
  simp [Pool.Wary, Pool.start]

/-- Along steps that spare whoever is in between, whoever acts is in between and finds
what it acts on. -/
theorem Passage.finds (bodies : ∀ t c, Guarded act found (checked · c) t none (body c))
    (never : ∀ i s, ¬act i s s) (wary : p.Wary act found checked)
    (spare : ∀ q q', Passage body ok p q → (∃ a, q.step body a = some q') → ok q q' →
      Spares act found checked q q')
    (passage : Passage body ok p p') :
    p'.Wary act found checked ∧ Passage body (fun q q' => ok q q' ∧
      ∀ i, act i q.shared q'.shared → found i q.shared ∧ ∃ t, Between act checked i q t) p p' := by
  induction passage with
  | refl => exact ⟨wary, .refl⟩
  | @tail q q' before step ih =>
    obtain ⟨wary, on⟩ := ih
    obtain ⟨⟨a, hs⟩, hok⟩ := step
    refine ⟨wary.step bodies never hs (spare q q' before ⟨a, hs⟩ hok),
      on.tail ⟨⟨a, hs⟩, hok, fun i acts => ?_⟩⟩
    obtain ⟨t, -, -, finds, between⟩ := wary.acts never hs acts
    exact ⟨finds, t, between⟩

end

end Interleave
