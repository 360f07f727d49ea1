import Hux.Rely

/-!
# A program amid the steps of others

* `Stepped`: a step that some call takes at some time;
* `Amid`: a program taken to its end by one thread, with others' steps before,
  between and after its own;
* `Run.amid_each`: in a run, that is how each call went;
* `Run.amid_moved`: and where calls follow a discipline, each step was a move made
  in a state that the discipline's invariant holds of.
-/

namespace Interleave
open Relation (ReflTransGen)

section
variable {C S E A α β : Type}

/-! ## The steps of calls -/

/-- What may be left of a call at some time. -/
inductive Left (body : C → Prog S E A) : Prog S E A → Prop
  | call (c : C) : Left body (body c)
  | step {β : Type} {f : Tid → S → E → Option (β × S)} {k : β → Prog S E A} (b : β) :
      Left body (.atom f k) → Left body (k b)

/-- A step that some call takes. -/
inductive Stepped (body : C → Prog S E A) (s s' : S) : Prop
  | step {β : Type} {f : Tid → S → E → Option (β × S)} {k : β → Prog S E A} {t : Tid} {e : E}
      {b : β} : Left body (.atom f k) → f t s e = some (b, s') → Stepped body s s'

/-- What every step of every call is in, every step is in. -/
theorem Stepped.of_steps {body : C → Prog S E A} {Q : S → S → Prop}
    (each : ∀ c, Steps Q (body c)) {s s' : S} (step : Stepped body s s') : Q s s' := by
  have left {p : Prog S E A} (h : Left body p) : Steps Q p := by
    induction h with
    | call c => exact each c
    | step b _ ih => exact ih.2 b
  cases step with
  | step h hf => exact (left h).1 _ _ _ _ _ hf

/-! ## Programs -/

/-- Run by thread `t` from one state with steps in `R` around its own, the program
returns in the other, and these are its own steps. -/
inductive Amid (R : S → S → Prop) (t : Tid) : Prog S E α → S → List (S × S) → α → S → Prop
  | ret {a : α} {s s' : S} : ReflTransGen R s s' → Amid R t (.ret a) s [] a s'
  | atom {β : Type} {f : Tid → S → E → Option (β × S)} {k : β → Prog S E α} {s s₁ s₂ s' : S} {e : E}
      {b : β} {l : List (S × S)} {a : α} : ReflTransGen R s s₁ → f t s₁ e = some (b, s₂) →
      Amid R t (k b) s₂ l a s' → Amid R t (.atom f k) s ((s₁, s₂) :: l) a s'

variable {R : S → S → Prop} {t : Tid} {s s' : S} {l : List (S × S)}

variable {p : Prog S E α} {a : α}

theorem Amid.later {s₀ : S} (first : ReflTransGen R s₀ s) (amid : Amid R t p s l a s') :
    Amid R t p s₀ l a s' := by
  cases amid with
  | ret on => exact .ret (first.trans on)
  | atom on step rest => exact .atom (first.trans on) step rest

theorem Amid.mono {R' : S → S → Prop} (amid : Amid R t p s l a s')
    (weaker : ∀ s s', R s s' → R' s s') : Amid R' t p s l a s' := by
  induction amid with
  | ret on => exact .ret (ReflTransGen.mono weaker _ _ on)
  | atom on step _ ih => exact .atom (ReflTransGen.mono weaker _ _ on) step ih

theorem Amid.bind {g : α → Prog S E β} {b : β} (amid : Amid R t (p >>= g) s l b s') :
    ∃ l₁ l₂ a s₁, l = l₁ ++ l₂ ∧ Amid R t p s l₁ a s₁ ∧ Amid R t (g a) s₁ l₂ b s' := by
  induction p generalizing s l with
  | ret a => exact ⟨[], l, a, s, rfl, .ret .refl, amid⟩
  | atom f k ih =>
    rw [Prog.atom_bind] at amid
    cases amid with
    | atom on step rest =>
      obtain ⟨l₁, l₂, a, s₁, rfl, first, second⟩ := ih _ rest
      exact ⟨_ :: l₁, l₂, a, s₁, rfl, .atom on step first, second⟩

/-- One step of its own. -/
theorem Amid.single {f : Tid → S → E → Option (α × S)} (amid : Amid R t (.atom f .ret) s l a s') :
    ∃ s₁ s₂ e, ReflTransGen R s s₁ ∧ f t s₁ e = some (a, s₂) ∧ ReflTransGen R s₂ s' ∧
      l = [(s₁, s₂)] := by
  cases amid with
  | atom on step rest =>
    cases rest with
    | ret after => exact ⟨_, _, _, on, step, after, rfl⟩

/-- What neither the others nor its own steps make false is still true at its end. -/
theorem Amid.along {P : S → Prop} (amid : Amid R t p s l a s') (others : Stable R P)
    (own : ∀ x ∈ l, P x.1 → P x.2) (before : P s) : P s' := by
  induction amid with
  | ret on => exact others.later on before
  | atom on _ _ ih =>
    obtain ⟨now, rest⟩ := List.forall_mem_cons.mp own
    exact ih rest (now (others.later on before))

theorem Amid.steps {Q : S → S → Prop} (amid : Amid R t p s l a s') (steps : Steps Q p) :
    ∀ x ∈ l, Q x.1 x.2 := by
  induction amid with
  | ret => simp
  | atom _ step _ ih =>
    exact List.forall_mem_cons.mpr ⟨steps.1 _ _ _ _ _ step, ih (steps.2 _)⟩

theorem Amid.took (amid : Amid R t p s l a s') : Took t p l a := by
  induction amid with
  | ret => exact .ret _
  | atom _ step _ ih => exact .atom step ih

/-- A run alone is one amid no steps at all. -/
theorem Alone.amid (alone : Alone t p s a s') : ∃ l, Amid R t p s l a s' := by
  induction alone with
  | ret a s => exact ⟨[], .ret .refl⟩
  | atom step _ ih =>
    obtain ⟨l, amid⟩ := ih
    exact ⟨_, .atom .refl step amid⟩

end

/-! ## Pools -/

section
variable {C S E A : Type} {body : C → Prog S E A} {ok : S → S → Prop} {s₀ : S} {p : Pool C S E A}

/-- The steps of the other threads, where those of each thread are in its `X`. -/
abbrev Around (body : C → Prog S E A) (X : Tid → S → S → Prop) (t : Tid) (s s' : S) : Prop :=
  Stepped body s s' ∧ ∃ u ≠ t, X u s s'

/-- In a run whose steps are each in `X` of the thread that takes them, what is left
of a call began with the call itself, amid the steps of others. -/
theorem Run.amid_left (X : Tid → S → S → Prop)
    (each : ∀ p p' u e, Run body ok s₀ p → p.step body (.run u e) = some p' →
      ok p.shared p'.shared → X u p.shared p'.shared) (run : Run body ok s₀ p) :
    (∀ t ≥ p.threads.length, ReflTransGen (Around body X t) s₀ p.shared) ∧
      ∀ (t : Tid) th, p.threads[t]? = some th → Left body th.prog ∧
        ∃ s l, ReflTransGen (Around body X t) s₀ s ∧ (∀ x ∈ l, X t x.1 x.2) ∧
          ∀ l' r s', Amid (Around body X t) t th.prog p.shared l' r s' →
            Amid (Around body X t) t (body th.call) s (l ++ l') r s' := by
  induction run with
  | start => exact ⟨fun _ _ => .refl, by simp [Pool.start]⟩
  | @step p p' act run hs hok ih =>
    obtain ⟨reached, ih⟩ := ih
    cases act with
    | spawn c =>
      cases hs
      refine ⟨fun t ht => reached t (by simp at ht; omega), fun t th hth => ?_⟩
      rcases Pool.step_threads (a := .spawn c) rfl hth with ⟨old, -⟩ | ⟨rfl, c, -, rfl⟩ |
        ⟨_, _, _, _, _, _, is, -⟩
      · exact ih t th old
      · exact ⟨.call c, p.shared, [], reached _ le_rfl, by simp, fun l' r s' h => h⟩
      · cases is
    | run u e =>
      have inX := each p p' u e run hs hok
      obtain ⟨_, _, _, _, _, hu, hf, set⟩ := Pool.step_run hs
      have inside : u < p.threads.length := (List.getElem?_eq_some_iff.mp hu).1
      have around {t : Tid} (other : u ≠ t) : Around body X t p.shared p'.shared :=
        ⟨.step (ih u _ hu).1 hf, u, other, inX⟩
      refine ⟨fun t ht => ?_, fun t th hth => ?_⟩
      · rw [set, List.length_set] at ht
        exact (reached t ht).tail (around (Nat.ne_of_lt (inside.trans_le ht)))
      rcases Pool.step_threads hs hth with ⟨old, other⟩ | ⟨-, _, is, -⟩ |
        ⟨e, c, _, f, k, b, is, there, hf, rfl⟩
      · obtain ⟨left, s, l, begun, own, amid⟩ := ih t th old
        exact ⟨left, s, l, begun, own, fun l' r s'' rest =>
          amid l' r s'' (rest.later (.single (around fun same => other e (same ▸ rfl))))⟩
      · cases is
      · obtain ⟨left, s, l, begun, own, amid⟩ := ih t _ there
        refine ⟨left.step b, s, l ++ [(p.shared, p'.shared)], begun, ?_, fun l' r s'' rest => ?_⟩
        · simp only [List.mem_append, List.mem_singleton]
          rintro x (old | rfl)
          · exact own x old
          · cases is
            exact inX
        · rw [List.append_assoc]
          exact amid _ r s'' (.atom .refl hf rest)

variable {t : Tid} {c : C} {r : A}

/-- A call that has returned in such a run. -/
theorem Run.amid_each (X : Tid → S → S → Prop)
    (each : ∀ p p' u e, Run body ok s₀ p → p.step body (.run u e) = some p' →
      ok p.shared p'.shared → X u p.shared p'.shared)
    (run : Run body ok s₀ p) (done : p.returned t = some (c, r)) :
    ∃ s l, ReflTransGen (Around body X t) s₀ s ∧ (∀ x ∈ l, X t x.1 x.2) ∧
      Amid (Around body X t) t (body c) s l r p.shared := by
  obtain ⟨-, s, l, begun, own, amid⟩ := (run.amid_left X each).2 t _ (Pool.threads_of_returned done)
  exact ⟨s, l, begun, own, by simpa using amid [] r p.shared (.ret .refl)⟩

/-- The steps a call took in a run that it has returned in. -/
theorem Run.took (run : Run body ok s₀ p) (done : p.returned t = some (c, r)) :
    ∃ l, Took t (body c) l r := by
  obtain ⟨_, l, -, -, amid⟩ :=
    run.amid_each (fun _ _ _ => True) (fun _ _ _ _ _ _ _ => trivial) done
  exact ⟨l, amid.took⟩

/-- A step thread `u` makes as the discipline says, in a state the invariant holds
of. -/
def Moved {Res : Type} (move : Moves S Res) (Inv : S → Multiset Res → Prop) (u : Tid) (s s' : S) :
    Prop :=
  ∃ F M M', Inv s (F + M) ∧ move u s M s' M'

/-- A call that has returned where every call follows a discipline: what it did
itself, and what others did meanwhile. -/
theorem Run.amid_moved {Res : Type} {move : Moves S Res}
    {post : Tid → C → A → Multiset Res → Prop} (Inv : S → Multiset Res → Prop)
    (follows : ∀ c t, Follows move t (body c) (post t c) 0) (start : Inv s₀ 0)
    (keep : ∀ t s F M s' M', Inv s (F + M) → move t s M s' M' → ok s s' → Inv s' (F + M'))
    (run : Run body ok s₀ p) (done : p.returned t = some (c, r)) :
    ∃ s l, (∀ x ∈ l, Moved move Inv t x.1 x.2) ∧
      Amid (Around body (Moved move Inv) t) t (body c) s l r p.shared := by
  have each : ∀ p p' u e, Run body ok s₀ p → p.step body (.run u e) = some p' →
      ok p.shared p'.shared → Moved move Inv u p.shared p'.shared := by
    intro p p' u e run hs _
    obtain ⟨held, matched, inv⟩ := run.invariant Inv follows start keep
    obtain ⟨held', -, ⟨c, is, -⟩ | ⟨_, _, F, M, M', is, hF, -, hmove⟩⟩ :=
      step_matched follows hs matched
    · cases is
    · cases is
      exact ⟨F, M, M', hF ▸ inv, hmove⟩
  obtain ⟨s, l, -, own, amid⟩ := run.amid_each (Moved move Inv) each done
  exact ⟨s, l, own, amid⟩

end

end Interleave
