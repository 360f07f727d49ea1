import Hux.Amid

/-!
# What a call puts out

Where each call adds to something of its own that no other call touches, what is there
when it returns is what it put there itself.

* `Threaded`: how a value went through the steps of a call;
* `Run.threaded`: in a run, from one step of a call to its next one nothing changes;
* `Puts`: what a program puts out, by its result.
-/

namespace Interleave

/-- From one value to another by these steps, with nothing in between. -/
def Threaded {S A : Type} (f : S → A) : A → List (S × S) → A → Prop
  | a, [], b => a = b
  | a, x :: l, b => f x.1 = a ∧ Threaded f (f x.2) l b

theorem threaded_append {S A : Type} {f : S → A} {a b : A} {l l' : List (S × S)} :
    Threaded f a (l ++ l') b ↔ ∃ m, Threaded f a l m ∧ Threaded f m l' b := by
  induction l generalizing a with
  | nil => simp [Threaded]
  | cons x l ih => simp [Threaded, ih, and_assoc]

section
variable {C S E R A : Type}

/-- What the steps around a program leave as it is goes through its own steps. -/
theorem Amid.threaded {α : Type} {around : S → S → Prop} {f : S → A}
    (same : ∀ s s', around s s' → f s' = f s) {t : Tid} {p : Prog S E α} {s s' : S}
    {l : List (S × S)} {a : α} (amid : Amid around t p s l a s') : Threaded f (f s) l (f s') := by
  have still {s s' : S} (later : Relation.ReflTransGen around s s') : f s' = f s :=
    Stable.later (P := fun x => f x = f s) (fun x x' step h => (same x x' step).trans h) later rfl
  induction amid with
  | ret later => exact (still later).symm
  | atom later _ _ ih => exact ⟨still later, ih⟩

/-- What only the thread itself changes, a call that has returned took from the start
of the run to where it is. -/
theorem Run.threaded {body : C → Prog S E R} {ok : S → S → Prop} {s₀ : S} (out : Tid → S → A)
    {a₀ : A} (silent : ∀ t, out t s₀ = a₀)
    (others : ∀ p p' u e, Run body ok s₀ p → p.step body (.run u e) = some p' →
      ∀ t ≠ u, out t p'.shared = out t p.shared)
    {p : Pool C S E R} (run : Run body ok s₀ p) {t : Tid} {c : C} {r : R}
    (done : p.returned t = some (c, r)) :
    ∃ l, Took t (body c) l r ∧ Threaded (out t) a₀ l (out t p.shared) := by
  obtain ⟨s, l, begun, -, amid⟩ := run.amid_each (fun u s s' => ∀ t ≠ u, out t s' = out t s)
    (fun p p' u e run hs _ => others p p' u e run hs) done
  have apart {s s' : S} (step : Around body (fun u s s' => ∀ t ≠ u, out t s' = out t s) t s s') :
      out t s' = out t s := by
    obtain ⟨-, u, other, same⟩ := step
    exact same t (Ne.symm other)
  obtain rfl : out t s = a₀ :=
    Stable.later (P := fun x => out t x = a₀) (fun _ _ step h => (apart step).trans h) begun
      (silent t)
  exact ⟨l, amid.took, amid.threaded fun _ _ step => apart step⟩

end

section
variable {S E α β O : Type} {t : Tid} {f : S → List O}

/-- With nothing else changing `f`, the program adds to it what `Q` says. -/
def Puts (f : S → List O) (t : Tid) (p : Prog S E α) (Q : α → List O → Prop) : Prop :=
  ∀ l r a b, Took t p l r → Threaded f a l b → ∃ o, b = a ++ o ∧ Q r o

namespace Puts
variable {Q : α → List O → Prop}

theorem ret {a : α} (h : Q a []) : Puts f t (.ret a : Prog S E α) Q := by
  intro l r a b took threaded
  cases took
  exact ⟨[], by simpa using threaded.symm, h⟩

theorem bind {p : Prog S E α} {g : α → Prog S E β} {Q' : β → List O → Prop} (first : Puts f t p Q)
    (rest : ∀ a o, Q a o → Puts f t (g a) fun b o' => Q' b (o ++ o')) : Puts f t (p >>= g) Q' := by
  intro l r a b took threaded
  obtain ⟨l₁, l₂, x, rfl, firstly, secondly⟩ := took_bind took
  obtain ⟨m, threaded₁, threaded₂⟩ := threaded_append.mp threaded
  obtain ⟨o, rfl, h⟩ := first l₁ x a m firstly threaded₁
  obtain ⟨o', rfl, h'⟩ := rest x o h l₂ r _ b secondly threaded₂
  exact ⟨o ++ o', by rw [List.append_assoc], h'⟩

/-- A program that puts nothing out. -/
theorem silent {p : Prog S E α} (steps : Steps (fun s s' => f s' = f s) p) :
    Puts f t p fun _ o => o = [] := by
  intro l r a b took threaded
  refine ⟨[], ?_, rfl⟩
  rw [List.append_nil]
  induction took generalizing a with
  | ret => exact threaded.symm
  | atom step _ ih =>
    obtain ⟨rfl, rest⟩ := threaded
    rw [ih (steps.2 _) _ rest]
    exact steps.1 _ _ _ _ _ step

/-- Then what follows puts out all there is. -/
theorem after {p : Prog S E α} {g : α → Prog S E β} {Q' : β → List O → Prop}
    (steps : Steps (fun s s' => f s' = f s) p) (rest : ∀ a, Puts f t (g a) Q') :
    Puts f t (p >>= g) Q' := by
  apply bind (silent steps)
  rintro a _ rfl
  exact rest a

end Puts

end

end Interleave
