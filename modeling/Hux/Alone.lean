import Hux.Interleave

/-!
# Programs run alone

* `Alone`: a program taken to its end with nothing in between;
* `Steps`: a relation every step of a program is in, whoever runs it;
* `Able`: a program that can always go on, by steps of a relation;
* `Took`, `Ends`: the steps a program takes among others', and what holds of them
  when it returns;
* `Prog.perform`: a way to find a run alone.
-/

namespace Interleave

/-- Run by thread `t` from one state, the program returns in the other. -/
inductive Alone {S E α : Type} (t : Tid) : Prog S E α → S → α → S → Prop
  | ret (a : α) (s : S) : Alone t (.ret a) s a s
  | atom {β : Type} {f : Tid → S → E → Option (β × S)} {k : β → Prog S E α} {s s' s'' : S} {e : E}
      {b : β} {a : α} : f t s e = some (b, s') → Alone t (k b) s' a s'' →
      Alone t (.atom f k) s a s''

section
variable {S E α β γ : Type} {t : Tid} {s s' s'' : S}

variable {a : α}

@[simp] theorem alone_ret {b : α} : Alone t (.ret a : Prog S E α) s b s' ↔ b = a ∧ s' = s := by
  constructor
  · rintro ⟨⟩
    exact ⟨rfl, rfl⟩
  · rintro ⟨rfl, rfl⟩
    exact .ret _ _

theorem alone_atom {f : Tid → S → E → Option (β × S)} {k : β → Prog S E α} :
    Alone t (.atom f k) s a s'' ↔ ∃ e b s', f t s e = some (b, s') ∧ Alone t (k b) s' a s'' := by
  constructor
  · rintro ⟨⟩
    exact ⟨_, _, _, ‹_›, ‹_›⟩
  · rintro ⟨e, b, s', step, rest⟩
    exact .atom step rest

variable {p : Prog S E α} {g : α → Prog S E β}

theorem alone_bind {b : β} :
    Alone t (p >>= g) s b s'' ↔ ∃ a s', Alone t p s a s' ∧ Alone t (g a) s' b s'' := by
  induction p generalizing s with
  | ret a =>
    simp only [Prog.ret_bind, alone_ret]
    exact ⟨fun h => ⟨a, s, ⟨rfl, rfl⟩, h⟩, fun ⟨_, _, ⟨ha, hs⟩, h⟩ => ha ▸ hs ▸ h⟩
  | atom f k ih =>
    simp only [Prog.atom_bind, alone_atom, ih]
    constructor
    · rintro ⟨e, c, s₁, step, a, s₂, first, rest⟩
      exact ⟨a, s₂, ⟨e, c, s₁, step, first⟩, rest⟩
    · rintro ⟨a, s₂, ⟨e, c, s₁, step, first⟩, rest⟩
      exact ⟨e, c, s₁, step, a, s₂, first, rest⟩

/-- A step that every answer enables, with the same outcome. -/
theorem alone_sure {f : Tid → S → E → Option (α × S)} {a₁ : α} {b : β} (e : E)
    (sure : ∀ e, f t s e = some (a₁, s')) :
    Alone t (.atom f .ret >>= g) s b s'' ↔ Alone t (g a₁) s' b s'' := by
  simp only [Prog.atom_bind, alone_atom, Prog.ret_bind, sure, Option.some.injEq, Prod.mk.injEq]
  constructor
  · rintro ⟨e, _, _, ⟨rfl, rfl⟩, rest⟩
    exact rest
  · exact fun rest => ⟨e, _, _, ⟨rfl, rfl⟩, rest⟩

/-! ## Steps -/

def Steps (R : S → S → Prop) : Prog S E α → Prop
  | .ret _ => True
  | .atom f k => (∀ t s e b s', f t s e = some (b, s') → R s s') ∧ ∀ b, Steps R (k b)

variable {R : S → S → Prop}

@[simp] theorem steps_ret (a : α) : Steps R (.ret a : Prog S E α) := trivial

theorem steps_atom {f : Tid → S → E → Option (α × S)}
    (step : ∀ t s e b s', f t s e = some (b, s') → R s s') : Steps R (.atom f .ret) :=
  ⟨step, steps_ret⟩

theorem steps_true (p : Prog S E α) : Steps (fun _ _ => True) p := by
  induction p with
  | ret a => exact trivial
  | atom f k ih => exact ⟨fun _ _ _ _ _ _ => trivial, ih⟩

theorem Steps.bind (first : Steps R p) (rest : ∀ a, Steps R (g a)) : Steps R (p >>= g) := by
  induction p with
  | ret a => exact rest a
  | atom f k ih => exact ⟨first.1, fun b => ih b (first.2 b)⟩

theorem Steps.ite {c : Prop} [Decidable c] {p' : Prog S E α} (h : Steps R p) (h' : Steps R p') :
    Steps R (if c then p else p') := by
  split <;> assumption

theorem Steps.mono {R' : S → S → Prop} (steps : Steps R p) (weaker : ∀ s s', R s s' → R' s s') :
    Steps R' p := by
  induction p with
  | ret a => exact trivial
  | atom f k ih => exact ⟨fun t s e b s' h => weaker s s' (steps.1 t s e b s' h),
      fun b => ih b (steps.2 b)⟩

/-- A program whose every step keeps something keeps it. -/
theorem Steps.alone {A : Type} {f : S → A} (steps : Steps (fun s s' => f s' = f s) p)
    (run : Alone t p s a s') : f s' = f s := by
  induction run with
  | ret => rfl
  | atom step _ ih => exact (ih (steps.2 _)).trans (steps.1 _ _ _ _ _ step)

/-- A program whose every step is a move that needs nothing is done with
nothing. -/
theorem Steps.follows {Res : Type} {move : Moves S Res} (steps : Steps R p)
    (free : ∀ s s', R s s' → move t s 0 s' 0) (M : Multiset Res) :
    Follows move t p (fun _ M' => M' = M) M := by
  induction p with
  | ret a => exact rfl
  | atom f k ih =>
    intro s e b s' step
    refine ⟨M, ⟨M, 0, 0, (add_zero M).symm, (add_zero M).symm, ?_⟩, ih b (steps.2 b)⟩
    exact free s s' (steps.1 t s e b s' step)

/-! ## Programs that return -/

/-- In every state some answer lets the program go on, by a step of the relation. -/
def Able (R : S → S → Prop) (t : Tid) : Prog S E α → Prop
  | .ret _ => True
  | .atom f k => (∀ s, ∃ e b s', f t s e = some (b, s') ∧ R s s') ∧ ∀ b, Able R t (k b)

theorem Able.bind (first : Able R t p) (rest : ∀ a, Able R t (g a)) : Able R t (p >>= g) := by
  induction p with
  | ret a => exact rest a
  | atom f k ih => exact ⟨first.1, fun b => ih b (first.2 b)⟩

theorem Able.ite {c : Prop} [Decidable c] {p' : Prog S E α} (h : Able R t p) (h' : Able R t p') :
    Able R t (if c then p else p') := by
  split <;> assumption

theorem Able.alone (able : Able R t p) (s : S) :
    ∃ a s', Alone t p s a s' ∧ Relation.ReflTransGen R s s' := by
  induction p generalizing s with
  | ret a => exact ⟨a, s, .ret a s, .refl⟩
  | atom f k ih =>
    obtain ⟨e, b, s₁, step, first⟩ := able.1 s
    obtain ⟨a, s', run, rest⟩ := ih b (able.2 b) s₁
    exact ⟨a, s', .atom step run, .head first rest⟩

end

/-! ## The steps a program took -/

/-- Run by thread `t`, with anything happening in between, the program returns
after these steps: each the state it found and the state it left. -/
inductive Took {S E α : Type} (t : Tid) : Prog S E α → List (S × S) → α → Prop
  | ret (a : α) : Took t (.ret a) [] a
  | atom {β : Type} {f : Tid → S → E → Option (β × S)} {k : β → Prog S E α} {s s' : S} {e : E}
      {b : β} {l : List (S × S)} {a : α} : f t s e = some (b, s') → Took t (k b) l a →
      Took t (.atom f k) ((s, s') :: l) a

/-- What holds of the result and of the steps taken, however the program goes. -/
def Ends {S E α : Type} (t : Tid) (p : Prog S E α) (Q : α → List (S × S) → Prop) : Prop :=
  ∀ l a, Took t p l a → Q a l

section
variable {S E α β : Type} {t : Tid} {p : Prog S E α} {Q : α → List (S × S) → Prop}

theorem took_bind {g : α → Prog S E β} {l : List (S × S)} {b : β} (took : Took t (p >>= g) l b) :
    ∃ l₁ l₂ a, l = l₁ ++ l₂ ∧ Took t p l₁ a ∧ Took t (g a) l₂ b := by
  induction p generalizing l with
  | ret a => exact ⟨[], l, a, rfl, .ret a, took⟩
  | atom f k ih =>
    rw [Prog.atom_bind] at took
    cases took with
    | atom step rest =>
      obtain ⟨l₁, l₂, a, rfl, first, second⟩ := ih _ rest
      exact ⟨_ :: l₁, l₂, a, rfl, .atom step first, second⟩

namespace Ends

theorem ret {a : α} (h : Q a []) : Ends t (.ret a : Prog S E α) Q := by
  intro l b took
  cases took
  exact h

theorem atom {f : Tid → S → E → Option (α × S)}
    (h : ∀ s e a s', f t s e = some (a, s') → Q a [(s, s')]) : Ends t (.atom f .ret) Q := by
  intro l a took
  cases took with
  | atom step rest =>
    cases rest
    exact h _ _ _ _ step

theorem weaken {Q' : α → List (S × S) → Prop} (h : Ends t p Q) (weaker : ∀ a l, Q a l → Q' a l) :
    Ends t p Q' :=
  fun l a took => weaker a l (h l a took)

theorem bind {g : α → Prog S E β} {R : β → List (S × S) → Prop} (first : Ends t p Q)
    (rest : ∀ a l, Q a l → Ends t (g a) fun b l' => R b (l ++ l')) : Ends t (p >>= g) R := by
  intro l b took
  obtain ⟨l₁, l₂, a, rfl, firstly, secondly⟩ := took_bind took
  exact rest a l₁ (first l₁ a firstly) l₂ b secondly

theorem and {Q' : α → List (S × S) → Prop} (h : Ends t p Q) (h' : Ends t p Q') :
    Ends t p fun a l => Q a l ∧ Q' a l :=
  fun l a took => ⟨h l a took, h' l a took⟩

theorem ite {c : Prop} [Decidable c] {p' : Prog S E α} (h : c → Ends t p Q)
    (h' : ¬c → Ends t p' Q) : Ends t (if c then p else p') Q := by
  split
  · exact h ‹_›
  · exact h' ‹_›

end Ends

theorem Steps.ends {R : S → S → Prop} (steps : Steps R p) :
    Ends t p fun _ l => ∀ x ∈ l, R x.1 x.2 := by
  intro l a took
  induction took with
  | ret => simp
  | atom step _ ih => exact List.forall_mem_cons.mpr ⟨steps.1 _ _ _ _ _ step, ih (steps.2 _)⟩

theorem Follows.ends {Res : Type} {move : Moves S Res} {P : α → Multiset Res → Prop}
    {M : Multiset Res} (follows : Follows move t p P M) : Ends t p fun a _ => ∃ M', P a M' := by
  intro l a took
  induction took generalizing M with
  | ret => exact ⟨M, follows⟩
  | atom step _ ih =>
    obtain ⟨M', -, rest⟩ := follows _ _ _ _ step
    exact ih rest

end

variable {S E : Type} {t : Tid}

/-- The run in which every step gets the first answer that enables it. -/
def Prog.perform {S E α : Type} (answers : List E) (t : Tid) : Prog S E α → S → Option (α × S)
  | .ret a, s => some (a, s)
  | .atom f k, s =>
    match answers.findSome? (f t s) with
    | some (b, s') => (k b).perform answers t s'
    | none => none

theorem Prog.perform_alone {α : Type} {answers : List E} {p : Prog S E α} {s s' : S} {a : α}
    (h : p.perform answers t s = some (a, s')) : Alone t p s a s' := by
  induction p generalizing s with
  | ret b =>
    cases h
    exact .ret _ _
  | atom f k ih =>
    simp only [Prog.perform] at h
    split at h
    · rename_i b s₁ found
      obtain ⟨e, -, step⟩ := List.exists_of_findSome?_eq_some found
      exact .atom step (ih b h)
    · cases h

theorem Prog.alone_of_perform {α : Type} (answers : List E) {p : Prog S E α} {s : S}
    (P : α → S → Prop) [∀ a s, Decidable (P a s)]
    (shown : ((p.perform answers t s).any fun x => decide (P x.1 x.2)) = true) :
    ∃ a s', Alone t p s a s' ∧ P a s' := by
  obtain ⟨x, performed, shown⟩ := (Option.any_eq_true _ _).mp shown
  exact ⟨x.1, x.2, perform_alone performed, of_decide_eq_true shown⟩

end Interleave
