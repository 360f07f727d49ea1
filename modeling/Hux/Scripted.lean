import Hux.Alone
import Hux.Part

/-!
# Critical sections with a script

What a program does under a lock is one step for everyone else, however many calls to
its environment it makes. `Scripted` is such a section: it uses up a list of answers, and
`Prog.region` makes one step of it.

* `Does P R m Q`: from where `P` holds, `m` goes by steps of `R` to where `Q` holds;
* `Run.steps_among`: what the steps of all calls keep holds after every run.
-/

namespace Interleave
open Relation (ReflTransGen)

/-- Changes the state and takes answers from the front of a list; `none` where the
answers do not fit. -/
def Scripted (S E α : Type) : Type := S → List E → Option (α × S × List E)

namespace Scripted
variable {S S₁ E L α β : Type}

instance : Monad (Scripted S E) where
  pure a := fun s es => some (a, s, es)
  bind m g := fun s es => (m s es).bind fun x => g x.1 x.2.1 x.2.2

def get (f : S → α) : Scripted S E α := fun s es => some (f s, s, es)

def set (f : S → S) : Scripted S E Unit := fun s es => some ((), f s, es)

def fail : Scripted S E α := fun _ _ => none

/-- One call to the environment. -/
def ask (f : S → E → Option (α × S)) : Scripted S E α
  | _, [] => none
  | s, e :: es => (f s e).map fun x => (x.1, x.2, es)

def loopOn (f : L → S → E → Option ((L ⊕ α) × S)) : List E → L → S → Option (α × S × List E)
  | [], _, _ => none
  | e :: es, l, s =>
    match f l s e with
    | some (.inl l', s') => loopOn f es l' s'
    | some (.inr a, s') => some (a, s', es)
    | none => none

/-- Calls to the environment, one after the other, until one of them ends the loop. -/
def loop (f : L → S → E → Option ((L ⊕ α) × S)) (l : L) : Scripted S E α := fun s es =>
  loopOn f es l s

/-- On a part of the state. -/
def on (part : Part S S₁) (m : Scripted S₁ E α) : Scripted S E α := fun s es =>
  (m (part.get s) es).map fun x => (x.1, part.put x.2.1 s, x.2.2)

/-- On each state of a list in turn, with what has come of it so far. -/
def each (m : α → Scripted S E α) (a : α) : Scripted (List S) E α
  | [], es => some (a, [], es)
  | s :: rest, es =>
    (m a s es).bind fun x =>
      (each m x.1 rest x.2.2).map fun y => (y.1, x.2.1 :: y.2.1, y.2.2)

variable {a : α} {s s' : S} {es es' : List E}

theorem pure_eq_some {b : α} :
    (pure a : Scripted S E α) s es = some (b, s', es') ↔ a = b ∧ s = s' ∧ es = es' := by
  change some (a, s, es) = some (b, s', es') ↔ _
  simp

theorem bind_eq_some {m : Scripted S E α} {g : α → Scripted S E β} {b : β} :
    (m >>= g) s es = some (b, s', es') ↔
      ∃ a s₁ es₁, m s es = some (a, s₁, es₁) ∧ g a s₁ es₁ = some (b, s', es') := by
  change ((m s es).bind fun x => g x.1 x.2.1 x.2.2) = some (b, s', es') ↔ _
  simp [Option.bind_eq_some_iff]

theorem ask_eq_some {f : S → E → Option (α × S)} :
    ask f s es = some (a, s', es') ↔ ∃ e, es = e :: es' ∧ f s e = some (a, s') := by
  cases es with
  | nil => simp [ask]
  | cons e rest =>
    simp only [ask, Option.map_eq_some_iff, List.cons.injEq, Prod.mk.injEq]
    constructor
    · rintro ⟨⟨b, s₁⟩, h, rfl, rfl, rfl⟩
      exact ⟨e, ⟨rfl, rfl⟩, h⟩
    · rintro ⟨_, ⟨rfl, rfl⟩, h⟩
      exact ⟨(a, s'), h, rfl, rfl, rfl⟩

/-! ## Rules -/

/-- From where `P` holds the section goes by steps of `R` to where `Q` holds. -/
def Does (P : S → Prop) (R : S → S → Prop) (m : Scripted S E α) (Q : α → S → Prop) : Prop :=
  ∀ s es a s' es', P s → m s es = some (a, s', es') → ReflTransGen R s s' ∧ Q a s'

namespace Does
variable {P P' : S → Prop} {R R' : S → S → Prop} {m : Scripted S E α} {Q Q' : α → S → Prop}

theorem pure {a : α} (h : ∀ s, P s → Q a s) : Does P R (pure a : Scripted S E α) Q := by
  intro s es b s' es' hp run
  obtain ⟨rfl, rfl, rfl⟩ := pure_eq_some.mp run
  exact ⟨.refl, h s hp⟩

theorem bind {g : α → Scripted S E β} {Q' : β → S → Prop} (first : Does P R m Q)
    (rest : ∀ a, Does (Q a) R (g a) Q') : Does P R (m >>= g) Q' := by
  intro s es b s' es' hp run
  obtain ⟨a, s₁, es₁, hm, hg⟩ := bind_eq_some.mp run
  obtain ⟨steps, hq⟩ := first s es a s₁ es₁ hp hm
  obtain ⟨steps', hq'⟩ := rest a s₁ es₁ b s' es' hq hg
  exact ⟨steps.trans steps', hq'⟩

theorem get {f : S → α} (h : ∀ s, P s → Q (f s) s) : Does P R (get f : Scripted S E α) Q := by
  intro s es b s' es' hp run
  cases run
  exact ⟨.refl, h s hp⟩

theorem set {f : S → S} {Q : Unit → S → Prop} (h : ∀ s, P s → R s (f s) ∧ Q () (f s)) :
    Does P R (set f : Scripted S E Unit) Q := by
  intro s es b s' es' hp run
  cases run
  exact ⟨.single (h s hp).1, (h s hp).2⟩

theorem fail : Does P R (fail : Scripted S E α) Q := by
  intro s es a s' es' _ run
  cases run

theorem ask {f : S → E → Option (α × S)}
    (h : ∀ s e a s', P s → f s e = some (a, s') → R s s' ∧ Q a s') : Does P R (ask f) Q := by
  intro s es a s' es' hp run
  obtain ⟨e, -, hf⟩ := ask_eq_some.mp run
  obtain ⟨step, hq⟩ := h s e a s' hp hf
  exact ⟨.single step, hq⟩

/-- A loop with an invariant. -/
theorem loop {f : L → S → E → Option ((L ⊕ α) × S)} {I : L → S → Prop}
    (goes : ∀ l s e l' s', I l s → f l s e = some (.inl l', s') → R s s' ∧ I l' s')
    (ends : ∀ l s e a s', I l s → f l s e = some (.inr a, s') → R s s' ∧ Q a s') (l : L) :
    Does (I l) R (loop f l) Q := by
  intro s es
  change ∀ a s' es', I l s → loopOn f es l s = some (a, s', es') → _
  induction es generalizing l s with
  | nil =>
    intro a s' es' _ run
    cases run
  | cons e es ih =>
    intro a s' es' inv run
    rw [loopOn] at run
    split at run
    · rename_i l' s₁ hf
      obtain ⟨step, inv'⟩ := goes l s e l' s₁ inv hf
      obtain ⟨steps, hq⟩ := ih l' s₁ a s' es' inv' run
      exact ⟨.head step steps, hq⟩
    · rename_i b s₁ hf
      cases run
      obtain ⟨step, hq⟩ := ends l s e _ _ inv hf
      exact ⟨.single step, hq⟩
    · cases run

theorem ite {c : Prop} [Decidable c] {m' : Scripted S E α}
    (yes : c → Does P R m Q) (no : ¬c → Does P R m' Q) : Does P R (if c then m else m') Q := by
  split
  · exact yes ‹_›
  · exact no ‹_›

theorem weaken (does : Does P R m Q) (pre : ∀ s, P' s → P s) (post : ∀ a s, Q a s → Q' a s) :
    Does P' R m Q' := by
  intro s es a s' es' hp run
  obtain ⟨steps, hq⟩ := does s es a s' es' (pre s hp) run
  exact ⟨steps, post a s' hq⟩

theorem mono (does : Does P R m Q) (weaker : ∀ s s', R s s' → R' s s') : Does P R' m Q := by
  intro s es a s' es' hp run
  obtain ⟨steps, hq⟩ := does s es a s' es' hp run
  exact ⟨ReflTransGen.mono weaker _ _ steps, hq⟩

/-- Taken as one step, by what is known of where it leads from each state. -/
theorem once (spec : ∀ s₀, P s₀ → Does (· = s₀) (fun _ _ => True) m fun a s => R s₀ s ∧ Q a s) :
    Does P R m Q := by
  intro s es a s' es' hp run
  obtain ⟨-, step, hq⟩ := spec s hp s es a s' es' rfl run
  exact ⟨.single step, hq⟩

/-- Where it leads, from one state at a time. -/
theorem of_spec {T : S → α → S → Prop} (spec : ∀ s₀, Does (· = s₀) (fun _ _ => True) m (T s₀))
    (step : ∀ s a s', P s → T s a s' → R s s' ∧ Q a s') : Does P R m Q :=
  once fun s₀ hp => (spec s₀).weaken (fun _ h => h) fun a s h => step s₀ a s hp h

/-- On a part of the state, the rest stays. -/
theorem on (part : Part S₁ S) {s₀ : S₁} (does : Does (· = part.get s₀) R m Q) :
    Does (· = s₀) (fun _ _ => True) (m.on part) fun a s => ∃ b, s = part.put b s₀ ∧ Q a b := by
  rintro _ es a s' es' rfl run
  obtain ⟨x, hm, eq⟩ := Option.map_eq_some_iff.mp run
  cases eq
  obtain ⟨-, hq⟩ := does _ es x.1 x.2.1 x.2.2 rfl hm
  exact ⟨.single trivial, _, rfl, hq⟩

end Does

/-- One state after the other goes as `T` says. -/
inductive Each (T : α → S → α → S → Prop) : α → List S → α → List S → Prop
  | nil {a : α} : Each T a [] a []
  | cons {a a₁ a₂ : α} {s s' : S} {rest rest' : List S} : T a s a₁ s' →
      Each T a₁ rest a₂ rest' → Each T a (s :: rest) a₂ (s' :: rest')

variable {T : α → S → α → S → Prop}

/-- Every state of the list goes as one does. -/
theorem Does.each {m : α → Scripted S E α}
    (spec : ∀ a s₀, Does (· = s₀) (fun _ _ => True) (m a) fun a' s => T a s₀ a' s) (a : α)
    (ss : List S) :
    Does (· = ss) (fun _ _ => True) (each m a) fun a' ss' => Each T a ss a' ss' := by
  rintro ss es a' ss' es' rfl run
  refine ⟨.single trivial, ?_⟩
  induction ss generalizing a es ss' with
  | nil =>
    cases run
    exact .nil
  | cons s rest ih =>
    obtain ⟨x, first, later⟩ := Option.bind_eq_some_iff.mp run
    obtain ⟨y, others, eq⟩ := Option.map_eq_some_iff.mp later
    cases eq
    exact .cons (spec a s s es _ _ _ rfl first).2 (ih _ _ _ others)

theorem Each.of_mem {U : S → S → Prop} {a' : α} {ss ss' : List S} (each : Each T a ss a' ss')
    (step : ∀ a s a' s', T a s a' s' → U s s') : ∀ s' ∈ ss', ∃ s ∈ ss, U s s' := by
  induction each with
  | nil => simp
  | @cons _ _ _ s s' _ _ first _ ih =>
    intro r hr
    rcases List.mem_cons.mp hr with rfl | later
    · exact ⟨s, List.mem_cons_self, step _ _ _ _ first⟩
    · obtain ⟨r', hr', related⟩ := ih r later
      exact ⟨r', List.mem_cons_of_mem _ hr', related⟩

theorem Each.map_eq {f : S → β} {a' : α} {ss ss' : List S} (each : Each T a ss a' ss')
    (step : ∀ a s a' s', T a s a' s' → f s' = f s) : ss'.map f = ss.map f := by
  induction each with
  | nil => rfl
  | cons first _ ih => rw [List.map_cons, List.map_cons, step _ _ _ _ first, ih]

end Scripted

/-! ## Regions of programs -/

/-- A section as one step, which takes all of the answers. -/
def Prog.region {S E α : Type} (m : Scripted S E α) : Prog S (List E) α :=
  .atom (fun _ s es => (m s es).bind fun x => if x.2.2.isEmpty then some (x.1, x.2.1) else none)
    .ret

theorem region_step {S E α : Type} {m : Scripted S E α} {a : α} {s s' : S} {es : List E}
    (h : ((m s es).bind fun x => if x.2.2.isEmpty then some (x.1, x.2.1) else none) =
      some (a, s')) : m s es = some (a, s', []) := by
  obtain ⟨⟨b, s₁, rest⟩, run, taken⟩ := Option.bind_eq_some_iff.mp h
  dsimp only at taken
  split at taken
  · rename_i empty
    cases taken
    rw [run, List.isEmpty_iff.mp empty]
  · cases taken

theorem Scripted.Does.region {S E α : Type} {R T : S → S → Prop} {m : Scripted S E α}
    {Q : α → S → Prop} (does : Does (fun _ => True) R m Q)
    (whole : ∀ s s', ReflTransGen R s s' → T s s') : Steps T (Prog.region m) :=
  ⟨fun _ s es b s' h => whole s s' (does s es b s' [] trivial (region_step h)).1, fun _ => trivial⟩

section
variable {C S E A : Type}

/-- What every step of the calls of some kind keeps, in a run of such calls. -/
theorem Run.steps_among {body : C → Prog S E A} {ok T : S → S → Prop} (J : S → Prop)
    (kind : C → Prop) (steps : ∀ c, kind c → Steps T (body c)) {s₀ : S} (start : J s₀)
    (keep : ∀ s s', J s → T s s' → ok s s' → J s') {p : Pool C S E A} (run : Run body ok s₀ p)
    (calls : ∀ th ∈ p.threads, kind th.call) : J p.shared := by
  have follows (c : C) (t : Tid) :
      Follows (fun _ s (M : Multiset Unit) s' M' => (kind c → T s s') ∧ M = 0 ∧ M' = 0) t (body c)
        (fun _ M => M = 0) 0 := by
    by_cases is : kind c
    · exact (steps c is).follows (fun s s' h => ⟨fun _ => h, rfl, rfl⟩) 0
    · exact (steps_true (body c)).follows (fun s s' _ => ⟨fun h => absurd h is, rfl, rfl⟩) 0
  obtain ⟨-, -, inv⟩ := run.allotted_among (fun s (_ : Multiset Unit) => J s) (fun _ _ => True) kind
    follows (fun _ => trivial) (fun _ _ _ _ _ _ _ _ => trivial) start
    (fun c t s F M s' M' is inv move hok => keep s s' inv (move.1 is) hok) calls
  exact inv

end

end Interleave
